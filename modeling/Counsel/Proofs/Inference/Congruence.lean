/-
Two eliminations side by side. A congruence relates factors that have the same scope and the same role,
and whatever is made of related factors in the same way is related again (`Factor.Congruence`). Two
eliminations that begin with related factors go on with related factors, or stop at the same variable and
for the same reason (`Factor.Congruence.sweep_parallel`). What an order is checked for is read off the
variables and the scopes of a diagram alone, so it is the same in two diagrams whose tables are related
(`Diagram.Corresponds.checkOrder_eq`).
-/
import Counsel.Proofs.Inference.Evidence
import Counsel.Proofs.Inference.Parallel
import Counsel.Proofs.Inference.Sweep

namespace Counsel

open Outcome

variable {α : Type}

/-- Two evidences observe the same variables, perhaps at other positions. -/
def Slots.SameAssigned (s t : Slots) : Prop := ∀ id, s.isAssigned id = t.isAssigned id

/-- The assigned variables are listed in the order of their ids, so that it is enough to know which. -/
theorem Slots.SameAssigned.assigned_eq {s t : Slots} (same : s.SameAssigned t) :
    s.assigned.map (·.1) = t.assigned.map (·.1) := by
  refine Slots.eq_of_ascending s.assigned_ids_pairwise t.assigned_ids_pairwise fun id => ?_
  rw [Slots.mem_assigned_ids, Slots.mem_assigned_ids, same id]

/-- Two eliminations whose factors are related, whatever their rules are. -/
def Elimination.Abreast (R : Factor α → Factor α → Prop) (a b : Elimination α) : Prop :=
  List.Forall₂ R a.factors b.factors

namespace Factor

/-- The same scope and the same role, whatever the numbers in it are. -/
structure SameShape (f g : Factor α) : Prop where
  scope : f.scope = g.scope
  role : f.role = g.role

theorem SameShape.carriesUtility {f g : Factor α} (h : SameShape f g) :
    f.carriesUtility = g.carriesUtility := by
  rw [Factor.carriesUtility, Factor.carriesUtility, h.role]

variable {fs gs : List (Factor α)}

theorem scopes_of_sameShape (h : List.Forall₂ SameShape fs gs) :
    fs.map Factor.scope = gs.map Factor.scope := by
  induction h with
  | nil => rfl
  | cons head _ ih => rw [List.map_cons, List.map_cons, head.scope, ih]

theorem any_carriesUtility_of_sameShape (h : List.Forall₂ SameShape fs gs) :
    fs.any Factor.carriesUtility = gs.any Factor.carriesUtility := by
  induction h with
  | nil => rfl
  | cons head _ ih => rw [List.any_cons, List.any_cons, head.carriesUtility, ih]

/-- A relation between factors that every step of an elimination keeps, with one evidence filled into the
factors on the left and one into those on the right. -/
structure Congruence (R : Factor α → Factor α → Prop) (s t : Slots) : Prop where
  assigned : s.SameAssigned t
  scope : ∀ {f g}, R f g → f.scope = g.scope
  role : ∀ {f g}, R f g → f.role = g.role
  observe : ∀ {f g}, R f g → ∀ n m, Matched Eq R (observe n f s) (observe m g t)
  sumOut : ∀ {fs gs}, List.Forall₂ R fs gs → ∀ axis n m,
    Matched Eq R (sumOut n axis fs) (sumOut m axis gs)
  maxOut : ∀ {f g}, R f g → ∀ axis n m, Matched Eq R (maxOut n axis f) (maxOut m axis g)

/-- Related factors are kept together by what they have in common. -/
theorem filter_related {R : Factor α → Factor α → Prop} {fs gs : List (Factor α)}
    (h : List.Forall₂ R fs gs) {p : Factor α → Bool} (same : ∀ f g, R f g → p f = p g) :
    List.Forall₂ R (fs.filter p) (gs.filter p) :=
  List.rel_filter (fun f g related => by simp only [same f g related]) h

namespace Congruence

open Infer

variable {R : Factor α → Factor α → Prop} {s t : Slots} {f g : Factor α} {fs gs : List (Factor α)}
  (keeps : Congruence R s t)
include keeps

/-! ## Steps -/

theorem mentions (h : R f g) (id : VarId) : f.mentions id = g.mentions id := by
  rw [Factor.mentions, Factor.mentions, keeps.scope h]

theorem projectOne_parallel (h : R f g) :
    Parallel R (Diagram.projectOne s f) (Diagram.projectOne t g) := by
  unfold Diagram.projectOne
  rw [keeps.scope h, funext keeps.assigned]
  split
  · exact Parallel.nextNumber.bind fun n m _ => .ofModel (keeps.observe h n m)
  · exact .pure h

theorem project_parallel (h : List.Forall₂ R fs gs) :
    Parallel (List.Forall₂ R) (Diagram.project fs s) (Diagram.project gs t) :=
  .mapM (fun _ _ k => keeps.projectOne_parallel k) h

theorem eliminate_parallel (v : Variable) (h : List.Forall₂ R fs gs) :
    Parallel (List.Forall₂ R) (Diagram.eliminate fs v) (Diagram.eliminate gs v) := by
  have mentioning := filter_related h fun f g k => keeps.mentions k v.id
  have others := filter_related (p := (!·.mentions v.id)) h fun f g k => by rw [keeps.mentions k v.id]
  have empty : (fs.filter (·.mentions v.id)).isEmpty = (gs.filter (·.mentions v.id)).isEmpty := by
    rw [Bool.eq_iff_iff, List.isEmpty_iff_length_eq_zero, List.isEmpty_iff_length_eq_zero,
      mentioning.length_eq]
  unfold Diagram.eliminate
  simp only [List.partition_eq_filter_filter, empty]
  split
  · exact .pure others
  · refine Parallel.nextNumber.bind fun n m _ => ?_
    refine (Parallel.ofModel (keeps.sumOut mentioning v n m)).bind fun f g same => ?_
    exact .pure (List.rel_append others (.cons same .nil))

theorem maximise_parallel (v : Variable) {a b : Elimination α} (h : Elimination.Abreast R a b) :
    Parallel (Elimination.Abreast R) (Diagram.maximise a v) (Diagram.maximise b v) := by
  have mentioning := filter_related h fun f g k => keeps.mentions k v.id
  have others := filter_related (p := (!·.mentions v.id)) h fun f g k => by rw [keeps.mentions k v.id]
  unfold Diagram.maximise
  simp only [List.partition_eq_filter_filter]
  generalize a.factors.filter (·.mentions v.id) = bases at mentioning ⊢
  generalize b.factors.filter (·.mentions v.id) = bases' at mentioning ⊢
  cases mentioning with
  | nil => exact .pure others
  | @cons f g _ _ one more =>
    cases more with
    | nil =>
      -- a factor outside the information set is named in the error, by its scope and its number
      have labels : f.label.unnumbered = g.label.unnumbered := by
        rw [FactorLabel.unnumbered, FactorLabel.unnumbered, label, label, keeps.scope one]
      simp only [keeps.scope one]
      split
      · exact .throw (by simp only [InferenceError.unnumbered, OrderFault.unnumbered, labels])
      · refine Parallel.nextNumber.bind fun n m _ => ?_
        refine (Parallel.ofModel (keeps.maxOut one v n m)).bind fun f g same => ?_
        exact .pure (List.rel_append others (.cons same .nil))
    | cons _ more => exact .throw (by simp only [List.length_cons, more.length_eq])

theorem sweepOne_parallel (v : Variable) {a b : Elimination α} (h : Elimination.Abreast R a b) :
    Parallel (Elimination.Abreast R) (Diagram.sweepOne a v) (Diagram.sweepOne b v) := by
  unfold Diagram.sweepOne
  split
  · exact keeps.maximise_parallel v h
  · exact (keeps.eliminate_parallel v h).bind fun _ _ same => .pure same

/-! ## Runs -/

theorem eliminations_parallel (vs : List Variable) (h : List.Forall₂ R fs gs) :
    Parallel (List.Forall₂ R) (vs.foldlM Diagram.eliminate fs) (vs.foldlM Diagram.eliminate gs) :=
  .foldlM (fun v _ _ => keeps.eliminate_parallel v) h

theorem sweep_parallel (vs : List Variable) {a b : Elimination α} (h : Elimination.Abreast R a b) :
    Parallel (Elimination.Abreast R) (vs.foldlM Diagram.sweepOne a) (vs.foldlM Diagram.sweepOne b) :=
  .foldlM (fun v _ _ => keeps.sweepOne_parallel v) h

end Congruence

end Factor

namespace Diagram

/-- Two diagrams over the same variables, with related tables. -/
structure Corresponds (R : Factor α → Factor α → Prop) (d e : Diagram α) : Prop where
  vars : d.vars = e.vars
  topological : d.topological = e.topological
  tables : List.Forall₂ R d.probabilityFactors e.probabilityFactors
  utility : R d.utility e.utility

namespace Corresponds

open Infer

variable {R : Factor α → Factor α → Prop} {d e : Diagram α} {s t : Slots}
  (same : d.Corresponds R e)
include same

/-! ## What is read off the variables -/

theorem byId?_eq (id : VarId) : d.byId? id = e.byId? id := by
  rw [byId?, byId?, same.vars]

theorem pick_eq (ids : List VarId) : d.pick ids = e.pick ids := by
  rw [pick, pick, funext same.byId?_eq]

theorem chanceOrder_eq : d.chanceOrder = e.chanceOrder := by
  simp only [chanceOrder, orderOf, same.topological, same.byId?_eq]

theorem visit_eq : d.visit = e.visit := by
  have parents : d.parentsOf = e.parentsOf := funext fun id => by
    rw [parentsOf, parentsOf, same.byId?_eq]
  funext s
  rw [visit, visit, parents]

theorem ancestors_eq (targets : List VarId) : d.ancestors targets = e.ancestors targets := by
  simp only [ancestors, startSearch, same.vars, same.visit_eq]

theorem checkEntries_eq (seen order : List VarId) :
    d.checkEntries seen order = e.checkEntries seen order := by
  induction order generalizing seen with
  | nil => rfl
  | cons id rest ih => simp only [checkEntries, same.byId?_eq, ih]

theorem hidden_eq (observed : s.SameAssigned t) (marks : Array Bool) (target : Option VarId)
    (ids : List VarId) : d.hidden marks s target ids = e.hidden marks t target ids := by
  simp only [hidden, same.byId?_eq, observed _]

omit same in
/-- Whether a variable takes part depends on which variables are observed, not on their positions. -/
theorem takesPart_eq (observed : s.SameAssigned t) (requisite : Array Bool) :
    takesPart requisite s = takesPart requisite t := by
  funext v
  rw [takesPart, takesPart, observed]

theorem participants_eq (observed : s.SameAssigned t) (requisite : Array Bool) (order : List VarId) :
    d.participants requisite s order = e.participants requisite t order := by
  simp only [participants, same.byId?_eq, takesPart_eq observed]

/-- The check of an order reads variables and which of them are observed, and no numbers. -/
theorem checkOrder_eq (observed : s.SameAssigned t) (order : List VarId) (requisite : Array Bool) :
    d.checkOrder order requisite s = e.checkOrder order requisite t := by
  simp only [checkOrder, eliminatedBefore, same.checkEntries_eq, same.vars, same.pick_eq,
    takesPart_eq observed]

/-! ## What is read off the scopes -/

variable (keeps : Factor.Congruence R s t)
include keeps

theorem requisiteChance_eq : d.requisiteChance s = e.requisiteChance t := by
  simp only [requisiteChance, same.vars, same.ancestors_eq, keeps.scope same.utility,
    keeps.assigned.assigned_eq]

theorem markedFactors_related (marks : Array Bool) :
    List.Forall₂ R (d.markedFactors marks) (e.markedFactors marks) :=
  Factor.filter_related same.tables fun f g related => by rw [Factor.child?, Factor.child?, keeps.role related]

theorem startTables_related : List.Forall₂ R (d.startTables s) (e.startTables t) := by
  rw [startTables, startTables, same.requisiteChance_eq keeps]
  exact List.rel_append (same.markedFactors_related keeps _) (.cons same.utility .nil)

variable [Scalar α] (h : d.WellFormed) (k : e.WellFormed)
include h k

theorem observedChance_eq (admits : d.Admits s) : d.observedChance s = e.observedChance t := by
  rw [observedChance, observedChance, keeps.assigned.assigned_eq]
  refine List.filter_congr fun id assigned => ?_
  rw [← keeps.assigned.assigned_eq, Slots.mem_assigned_ids] at assigned
  obtain ⟨v, hv, rfl⟩ := admits.known id assigned
  rw [Bool.eq_iff_iff, h.cpt?_isSome hv, k.cpt?_isSome (same.vars ▸ hv)]

theorem behind_eq (admits : d.Admits s) : d.behind s = e.behind t := by
  rw [behind, behind, same.observedChance_eq keeps h k admits, same.ancestors_eq]

/-- The probabilities of two evidences are related if the products of related factors are, and neither
is worked out if a sum is too large. -/
theorem evidenceProbability_parallel (admits : d.Admits s) (admits' : e.Admits t) {S : α → α → Prop}
    (one : S 1 1) (products : ∀ fs gs, List.Forall₂ R fs gs →
      S (Factor.productValue fs s.world) (Factor.productValue gs t.world)) :
    Parallel S (d.evidenceProbability s) (e.evidenceProbability t) := by
  have marks := same.behind_eq keeps h k admits
  have same_hidden := same.hidden_eq keeps.assigned (e.behind t) none e.chanceOrder.reverse
  unfold evidenceProbability
  simp only
  rw [← observedChance, ← observedChance, ← behind, ← behind, same.observedChance_eq keeps h k admits,
    marks, same.chanceOrder_eq, same_hidden]
  split
  next => exact .pure one
  next =>
    -- both runs are stages throughout, so that their products are plain ones
    have closed := marks ▸ behind_closed h admits
    have sub : ∀ v ∈ e.hidden (e.behind t) t none e.chanceOrder.reverse, v ∈ e.vars :=
      fun v hv => (mem_chanceVars.1 ((mem_hidden k).1 hv).1).1
    intro n m
    refine answers_bind (keeps.project_parallel (same.markedFactors_related keeps _) n m)
      fun fs gs n' m' filled filled' related => ?_
    refine answers_bind (keeps.eliminations_parallel _ related n' m')
      fun fs' gs' n'' m'' run run' left => ?_
    obtain ⟨nodes, stage, -⟩ := stage_of_project h admits closed filled
    obtain ⟨_, last⟩ := stage_run (same.vars ▸ sub) stage run
    obtain ⟨nodes', stage', -⟩ := stage_of_project k admits' (behind_closed k admits') filled'
    obtain ⟨_, last'⟩ := stage_run sub stage' run'
    rw [← same_hidden, ← same.chanceOrder_eq] at last
    rw [Factor.answerFrom_productOf last.toGraph last.members (closed_of_hidden h last)
        (h.world_inRange admits.within),
      Factor.answerFrom_productOf last'.toGraph last'.members (closed_of_hidden k last')
        (k.world_inRange admits'.within)]
    exact .ok (products fs' gs' left)

end Corresponds

end Diagram

end Counsel
