/-
Summing variables out one after the other. From the tables of a set of variables closed under parents,
with evidence filled in, an elimination leaves factors over the variables that were not eliminated
(`stage_run`), and their product is the sum over the eliminated ones of the product of the tables
(`weight_run`). Repeated entries change nothing. Tables hold no negative numbers, so neither does a
mass (`mass_nonneg`).
-/
import Counsel.Proofs.Inference.Joint

namespace Counsel.Diagram

open Outcome World

/-! ## The first stage -/

section Start

variable {α : Type} [Scalar α] {d : Diagram α} {live : VarId → Prop} {carriers : Nat}
  {nodes : Factor α → Prop} {n m : Nat} {fs gs : List (Factor α)}

/-- The tables of a diagram are a graph whatever the next number is. -/
theorem listed_tables (h : d.WellFormed) (n : Nat)
    (sub : ∀ f ∈ fs, f ∈ d.probabilityFactors ∨ f = d.utility) :
    d.Listed (fun f => f ∈ d.probabilityFactors ∨ f = d.utility) n fs where
  toNumbered := .tables h.inj fun f hf => by
    rcases hf with hf | rfl
    · obtain ⟨v, hv, cond⟩ := forall₂_right_mem h.conditionals hf
      exact h.built_conditional (mem_chanceVars.1 hv).1 cond
    · exact h.built_utility
  members := sub

/-- Tables with evidence filled in are a stage for what they are about and is not observed. -/
theorem stage_of_projected (h : d.WellFormed) {evidence : Slots} (listed : d.Listed nodes m gs)
    (built : ∀ f ∈ fs, Factor.Built d.vars f) (projected : List.Forall₂ (Projected evidence) fs gs)
    (hlive : ∀ f ∈ fs, ∀ id ∈ f.scope.ids, evidence.isAssigned id = false → live id)
    (held : ∀ v ∈ d.vars, v.kind = .chance → live v.id →
      evidence.isAssigned v.id = false ∧ ∃ f ∈ fs, v.id ∈ f.scope.ids)
    (carried : fs.countP (·.carriesUtility) = carriers) (few : carriers ≤ 1)
    (chance : ∀ f ∈ fs, f.carriesUtility = false → ∀ v ∈ f.scope.vars, v.kind = .chance) :
    d.Stage live carriers nodes m gs where
  toListed := listed
  live_of_mem g hg id hid := by
    obtain ⟨f, hf, p⟩ := forall₂_right_mem projected hg
    obtain ⟨hid, free⟩ := (p.mem_ids id).1 hid
    exact hlive f hf id hid free
  held v hv hk hl := by
    obtain ⟨free, f, hf, hid⟩ := held v hv hk hl
    obtain ⟨g, hg, p⟩ := forall₂_mem projected hf
    exact ⟨g, hg, (p.mem_ids _).2 ⟨hid, free⟩⟩
  carried := by
    rw [← carried]
    clear listed built hlive held chance carried
    induction projected with
    | nil => rfl
    | cons head _ ih => rw [List.countP_cons, List.countP_cons, ih, head.carriesUtility]
  atMostOne := few
  chance g hg none_carried v hv := by
    obtain ⟨f, hf, p⟩ := forall₂_right_mem projected hg
    obtain ⟨hid, -⟩ := (p.mem_ids v.id).1 (Scope.mem_ids.2 ⟨v, hv, rfl⟩)
    obtain ⟨u, hu, e⟩ := Scope.mem_ids.1 hid
    have hm := (listed.built g (listed.members g hg)).mem_vars v hv
    rw [← h.inj u ((built f hf).mem_vars u hu) v hm e]
    exact chance f hf (p.carriesUtility.symm.trans none_carried) u hu

/-- The hidden variables of a query: marked chance variables that are not observed. -/
def Hidden (d : Diagram α) (marks : Array Bool) (evidence : Slots) (id : VarId) : Prop :=
  evidence.isAssigned id = false ∧ Marked marks id ∧ ∃ v ∈ d.chanceVars, v.id = id

/-- The hidden variables of an order, in the order. -/
theorem hidden_eq_filter (h : d.WellFormed) (marks : Array Bool) (evidence : Slots)
    (target : Option VarId) (ids : List VarId) :
    d.hidden marks evidence target ids = (d.pick ids).filter fun u =>
      some u.id != target && !evidence.isAssigned u.id && marks.getD u.id.index false && !u.isDecision := by
  unfold hidden pick
  rw [List.filterMap_filter, List.filter_filterMap]
  refine List.filterMap_congr fun id _ => ?_
  rcases found : d.byId? id with _ | u
  · simp
  · obtain ⟨-, rfl⟩ := h.byId?_eq_some.1 found
    cases k : (some u.id != target && !evidence.isAssigned u.id) <;> simp [Option.filter, k]

theorem mem_hidden (h : d.WellFormed) {marks : Array Bool} {evidence : Slots}
    {target : Option VarId} {ids : List VarId} {v : Variable} :
    v ∈ d.hidden marks evidence target ids ↔
      v ∈ d.chanceVars ∧ d.Hidden marks evidence v.id ∧ v.id ∈ ids ∧ some v.id ≠ target := by
  rw [hidden_eq_filter h, List.mem_filter, h.mem_pick, mem_chanceVars]
  simp only [Bool.and_eq_true, bne_iff_ne, Bool.not_eq_true', isDecision_eq_false]
  constructor
  · rintro ⟨⟨hv, hid⟩, ⟨⟨ne, free⟩, marked⟩, chance⟩
    exact ⟨⟨hv, chance⟩, ⟨free, marked, v, mem_chanceVars.2 ⟨hv, chance⟩, rfl⟩, hid, ne⟩
  · rintro ⟨⟨hv, chance⟩, ⟨free, marked, -⟩, hid, ne⟩
    exact ⟨⟨hv, hid⟩, ⟨⟨ne, free⟩, marked⟩, chance⟩

/-- Along the order of all chance variables every hidden variable is listed. -/
theorem mem_hidden_all (h : d.WellFormed) {marks : Array Bool} {evidence : Slots} {v : Variable} :
    v ∈ d.hidden marks evidence none d.chanceOrder.reverse ↔
      v ∈ d.chanceVars ∧ d.Hidden marks evidence v.id := by
  rw [mem_hidden h]
  refine ⟨fun k => ⟨k.1, k.2.1⟩, fun k => ⟨k.1, k.2, ?_, Option.some_ne_none _⟩⟩
  obtain ⟨hv, chance⟩ := mem_chanceVars.1 k.1
  exact List.mem_reverse.2 (h.mem_orderOf.2 ⟨v, hv, rfl, chance⟩)

theorem mem_markedFactors (h : d.WellFormed) {marks : Array Bool} {f : Factor α} :
    f ∈ d.markedFactors marks ↔
      f ∈ d.probabilityFactors ∧ ∃ v ∈ d.chanceVars, Marked marks v.id ∧ d.Conditional v f := by
  rw [markedFactors, List.mem_filter]
  apply and_congr_right
  intro hf
  obtain ⟨v, hv, cond⟩ := forall₂_right_mem h.conditionals hf
  constructor
  · intro marked
    rw [child?_conditional cond, Option.any_some] at marked
    exact ⟨v, hv, marked, cond⟩
  · rintro ⟨u, -, marked, cond'⟩
    rw [child?_conditional cond', Option.any_some]
    exact marked

theorem carriesUtility_markedFactors (h : d.WellFormed) {marks : Array Bool} {f : Factor α}
    (hf : f ∈ d.markedFactors marks) : f.carriesUtility = false := by
  obtain ⟨-, v, -, -, number, scope, values, made, -⟩ := (mem_markedFactors h).1 hf
  rw [(Factor.ofValues_eq_ok.1 made).2]
  rfl

/-- Where marks are closed under parents, marked tables are about marked chance variables. -/
theorem marked_of_markedFactors (h : d.WellFormed) {marks : Array Bool}
    (closed : ∀ v ∈ d.chanceVars, Marked marks v.id → ∀ p ∈ v.parents, Marked marks p)
    {f : Factor α} (hf : f ∈ d.markedFactors marks) {u : Variable} (hu : u ∈ f.scope.vars) :
    u ∈ d.chanceVars ∧ Marked marks u.id := by
  obtain ⟨-, v, hv, marked, cond⟩ := (mem_markedFactors h).1 hf
  obtain ⟨hm, hk⟩ := mem_chanceVars.1 hv
  have built := (h.built_conditional hm cond).1
  rcases (cond.mem_ids h hm).1 (Scope.mem_ids.2 ⟨u, hu, rfl⟩) with hp | e
  · obtain ⟨w, hw, e, hk'⟩ := h.parents v hm u.id hp
    obtain rfl := h.inj w hw u (built.mem_vars u hu) e
    exact ⟨mem_chanceVars.2 ⟨hw, hk' hk⟩, closed v hv marked w.id hp⟩
  · obtain rfl := h.inj u (built.mem_vars u hu) v hm e
    exact ⟨hv, marked⟩

/-- A marked chance variable occurs in its own table. -/
theorem exists_markedFactor (h : d.WellFormed) {marks : Array Bool} {v : Variable}
    (hv : v ∈ d.chanceVars) (marked : Marked marks v.id) :
    ∃ f ∈ d.markedFactors marks, v.id ∈ f.scope.ids := by
  obtain ⟨f, hf, -, cond⟩ := exists_conditional h hv
  exact ⟨f, (mem_markedFactors h).2 ⟨hf, v, hv, marked, cond⟩,
    (cond.mem_ids h (mem_chanceVars.1 hv).1).2 (.inr rfl)⟩

/-- The tables of marked variables, with evidence filled in. -/
theorem exists_stage (h : d.WellFormed) {evidence : Slots} (admits : d.Admits evidence)
    {marks : Array Bool}
    (closed : ∀ v ∈ d.chanceVars, Marked marks v.id → ∀ p ∈ v.parents, Marked marks p) (n : Nat) :
    ∃ gs m nodes, answer (project (d.markedFactors marks) evidence) n = (.ok gs, m) ∧
      d.Stage (d.Hidden marks evidence) 0 nodes m gs ∧
      List.Forall₂ (Projected evidence) (d.markedFactors marks) gs := by
  have sub : ∀ f ∈ d.markedFactors marks, f ∈ d.probabilityFactors ∨ f = d.utility := fun f hf =>
    .inl ((mem_markedFactors h).1 hf).1
  have listed := listed_tables h n sub
  obtain ⟨gs, m, nodes, run, projected, listed', -⟩ := project_spec h admits.within listed
  refine ⟨gs, m, nodes, run, stage_of_projected h listed'
    (fun f hf => listed.built f (listed.members f hf)) projected ?_ ?_ ?_ (Nat.zero_le 1) ?_, projected⟩
  · intro f hf id hid free
    obtain ⟨u, hu, rfl⟩ := Scope.mem_ids.1 hid
    obtain ⟨hc, marked⟩ := marked_of_markedFactors h closed hf hu
    exact ⟨free, marked, u, hc, rfl⟩
  · intro v hv hk hl
    exact ⟨hl.1, exists_markedFactor h (mem_chanceVars.2 ⟨hv, hk⟩) hl.2.1⟩
  · apply List.countP_eq_zero.2
    intro f hf
    rw [carriesUtility_markedFactors h hf]
    exact Bool.false_ne_true
  · exact fun f hf _ u hu => (mem_chanceVars.1 (marked_of_markedFactors h closed hf hu).1).2

theorem stage_of_project (h : d.WellFormed) {evidence : Slots} (admits : d.Admits evidence)
    {marks : Array Bool}
    (closed : ∀ v ∈ d.chanceVars, Marked marks v.id → ∀ p ∈ v.parents, Marked marks p)
    (projected : answer (project (d.markedFactors marks) evidence) n = (.ok gs, m)) :
    ∃ nodes, d.Stage (d.Hidden marks evidence) 0 nodes m gs ∧
      List.Forall₂ (Projected evidence) (d.markedFactors marks) gs := by
  obtain ⟨_, _, nodes, projected', stage, same⟩ := exists_stage h admits closed n
  cases projected.symm.trans projected'
  exact ⟨nodes, stage, same⟩

/-! ## Runs -/

omit [Scalar α] in
/-- An elimination of some variables leaves a stage without them. -/
theorem stage_run {hs : List Variable} (sub : ∀ v ∈ hs, v ∈ d.vars)
    (stage : d.Stage live carriers nodes n fs) (run : answer (hs.foldlM eliminate fs) n = (.ok gs, m)) :
    ∃ nodes', d.Stage (fun id => live id ∧ id ∉ hs.map (·.id)) carriers nodes' m gs := by
  induction hs generalizing live nodes n fs with
  | nil =>
    cases run
    exact ⟨nodes, by simpa using stage⟩
  | cons v rest ih =>
    rw [List.foldlM_cons, answer_bind_ok] at run
    obtain ⟨mid, k, first, run⟩ := run
    obtain ⟨nodes', stage', -⟩ := stage.eliminate (sub v List.mem_cons_self) first
    obtain ⟨nodes'', stage''⟩ := ih (fun u hu => sub u (List.mem_cons_of_mem _ hu)) stage' run
    exact ⟨nodes'', live_cons live v rest ▸ stage''⟩

/-- Where all variables fit together, every elimination succeeds. -/
theorem exists_run (h : d.WellFormed) (fits : d.Fits) {hs : List Variable}
    (sub : ∀ v ∈ hs, v ∈ d.vars) (stage : d.Stage live carriers nodes n fs) :
    ∃ gs m, answer (hs.foldlM eliminate fs) n = (.ok gs, m) := by
  induction hs generalizing live nodes n fs with
  | nil => exact ⟨fs, n, rfl⟩
  | cons v rest ih =>
    obtain ⟨mid, k, first⟩ :=
      exists_eliminate h fits (fun f hf => stage.built f (stage.members f hf)) v n
    obtain ⟨nodes', stage', -⟩ := stage.eliminate (sub v List.mem_cons_self) first
    obtain ⟨gs, m, run⟩ := ih (fun u hu => sub u (List.mem_cons_of_mem _ hu)) stage'
    refine ⟨gs, m, ?_⟩
    rw [List.foldlM_cons, answer_bind_of_ok first, run]

/-! ## The tables behind the evidence -/

/-- The ancestors of some variables are closed under parents. -/
theorem marked_ancestors_closed (h : d.WellFormed) {targets : List VarId}
    (known : ∀ t ∈ targets, ∃ v ∈ d.vars, v.id = t) :
    ∀ v ∈ d.chanceVars, Marked (d.ancestors targets) v.id →
      ∀ p ∈ v.parents, Marked (d.ancestors targets) p := by
  intro v hv marked p hp
  rw [marked_ancestors h known] at marked ⊢
  exact marked.parent (by rw [h.parentsOf_eq (mem_chanceVars.1 hv).1]; exact hp)

/-- The observed chance variables. -/
def observedChance (d : Diagram α) (evidence : Slots) : List VarId :=
  (evidence.assigned.map (·.1)).filter fun id => (d.cpt? id).isSome

theorem mem_observedChance (h : d.WellFormed) {evidence : Slots} {v : Variable} (hv : v ∈ d.vars) :
    v.id ∈ d.observedChance evidence ↔ evidence.isAssigned v.id = true ∧ v.kind = .chance := by
  rw [observedChance, List.mem_filter, Slots.mem_assigned_ids, h.cpt?_isSome hv]

/-- The variables that the probability of the evidence needs: the ancestors of the observed chance
variables. -/
def behind (d : Diagram α) (evidence : Slots) : Array Bool := d.ancestors (d.observedChance evidence)

theorem marked_behind (h : d.WellFormed) {evidence : Slots} (admits : d.Admits evidence) {id : VarId} :
    Marked (d.behind evidence) id ↔ d.Reaches (d.observedChance evidence) id :=
  marked_ancestors h fun _ ht => admits.known _ (Slots.mem_assigned_ids.1 (List.mem_of_mem_filter ht))

theorem behind_closed (h : d.WellFormed) {evidence : Slots} (admits : d.Admits evidence) :
    ∀ v ∈ d.chanceVars, Marked (d.behind evidence) v.id →
      ∀ p ∈ v.parents, Marked (d.behind evidence) p :=
  marked_ancestors_closed h fun _ ht =>
    admits.known _ (Slots.mem_assigned_ids.1 (List.mem_of_mem_filter ht))

theorem behind_seen (h : d.WellFormed) {evidence : Slots} (admits : d.Admits evidence) :
    ∀ v ∈ d.chanceVars, evidence.isAssigned v.id = true → Marked (d.behind evidence) v.id := by
  intro v hv assigned
  obtain ⟨hm, chance⟩ := mem_chanceVars.1 hv
  exact (marked_behind h admits).2 (.target ((mem_observedChance h hm).2 ⟨assigned, chance⟩))

/-- With all hidden variables summed out no variable is left. -/
theorem closed_of_hidden (h : d.WellFormed) {marks : Array Bool} {evidence : Slots}
    (stage : d.Stage (fun id => d.Hidden marks evidence id ∧
      id ∉ (d.hidden marks evidence none d.chanceOrder.reverse).map (·.id)) carriers nodes n fs) :
    ∀ f ∈ fs, f.scope.vars = [] := by
  refine fun f hf => List.eq_nil_iff_forall_not_mem.2 fun u hu => ?_
  obtain ⟨hidden, gone⟩ := stage.live_of_mem f hf u.id (Scope.mem_ids.2 ⟨u, hu, rfl⟩)
  obtain ⟨w, hw, e⟩ := hidden.2.2
  exact gone (List.mem_map.2 ⟨w, (mem_hidden_all h).2 ⟨hw, e ▸ hidden⟩, e⟩)

/-- Where some chance variable is observed, the hidden ancestors are eliminated and what is left is
multiplied. -/
theorem evidenceProbability_reduced {evidence : Slots} (observed : d.observedChance evidence ≠ [])
    {k : Nat} (projected : answer (project (d.markedFactors (d.behind evidence)) evidence) n = (.ok gs, k)) :
    answer (d.evidenceProbability evidence) n =
      answer ((d.hidden (d.behind evidence) evidence none d.chanceOrder.reverse).foldlM eliminate gs >>=
        fun left => Infer.ofModel (Evaluate.answerFrom Slots.empty (productOf left))) k := by
  unfold behind at projected ⊢
  unfold evidenceProbability
  simp only
  rw [← observedChance, if_neg (mt List.isEmpty_iff.1 observed), answer_bind_of_ok projected]

theorem evidenceProbability_of_eliminated (h : d.WellFormed) {evidence : Slots}
    (admits : d.Admits evidence) (observed : d.observedChance evidence ≠ []) {k l : Nat}
    {left : List (Factor α)}
    (projected : answer (project (d.markedFactors (d.behind evidence)) evidence) n = (.ok gs, k))
    (eliminated : answer ((d.hidden (d.behind evidence) evidence none d.chanceOrder.reverse).foldlM
      eliminate gs) k = (.ok left, l)) :
    answer (d.evidenceProbability evidence) n =
      (.ok (Factor.productValue left evidence.world), l) := by
  obtain ⟨nodes, stage, -⟩ := stage_of_project h admits (behind_closed h admits) projected
  obtain ⟨nodes', last⟩ := stage_run
    (fun v hv => (mem_chanceVars.1 ((mem_hidden h).1 hv).1).1) stage eliminated
  have range : evidence.world.InRange d.vars := h.world_inRange admits.within
  rw [evidenceProbability_reduced observed projected, answer_bind_of_ok eliminated,
    Factor.answerFrom_productOf last.toGraph last.members (closed_of_hidden h last) range]
  rfl

theorem evidenceProbability_of_unobserved {evidence : Slots} (none_observed : d.observedChance evidence = [])
    (n : Nat) : answer (d.evidenceProbability evidence) n = (.ok 1, n) := by
  unfold evidenceProbability
  simp only
  rw [← observedChance, if_pos (List.isEmpty_iff.2 none_observed)]
  rfl

/-- Where all variables fit together, the probability of the evidence is worked out. -/
theorem exists_evidenceProbability (h : d.WellFormed) (fits : d.Fits) {evidence : Slots}
    (admits : d.Admits evidence) (n : Nat) :
    ∃ p m, answer (d.evidenceProbability evidence) n = (.ok p, m) := by
  by_cases none_observed : d.observedChance evidence = []
  · exact ⟨1, n, evidenceProbability_of_unobserved none_observed n⟩
  · obtain ⟨gs, k, nodes, projected, stage, -⟩ := exists_stage h admits (behind_closed h admits) n
    obtain ⟨left, l, eliminated⟩ := exists_run h fits
      (fun v hv => (mem_chanceVars.1 ((mem_hidden h).1 hv).1).1) stage
    exact ⟨_, l, evidenceProbability_of_eliminated h admits none_observed projected eliminated⟩

end Start

/-! ## The product of the factors -/

section Weight

variable {d : Diagram Rat} {live : VarId → Prop} {carriers : Nat} {nodes : Factor Rat → Prop}
  {n m : Nat} {fs gs : List (Factor Rat)}

/-- Filling evidence in does not change a product on worlds that agree with it. -/
theorem weight_projected {evidence : Slots} (projected : List.Forall₂ (Projected evidence) fs gs)
    {x : World} (agrees : x.Agrees evidence) : Factor.weight gs x = Factor.weight fs x := by
  induction projected with
  | nil => rfl
  | cons head _ ih =>
    rw [Factor.weight, List.map_cons, List.prod_cons, head.value x agrees, Factor.weight,
      List.map_cons, List.prod_cons]
    exact congrArg _ ih

/-- Eliminating a live chance variable sums the product over it. -/
theorem Stage.weight_eliminate (stage : d.Stage live carriers nodes n fs) {v : Variable}
    (hv : v ∈ d.vars) (chance : v.kind = .chance) (hl : live v.id)
    (run : answer (Diagram.eliminate fs v) n = (.ok gs, m)) :
    Factor.weight gs = sumOver v (Factor.weight fs) := by
  rcases eliminate_cases run with ⟨none_left, -⟩ | ⟨-, -, sum, made, rfl⟩
  · obtain ⟨f, hf, hm⟩ := stage.held v hv chance hl
    exact absurd hm (none_left f hf)
  · funext x
    -- the factors that do not mention the variable come out of the sum
    have others : ∀ y p, Factor.weight (fs.filter (!·.mentions v.id)) (Function.update y v.id p) =
        Factor.weight (fs.filter (!·.mentions v.id)) y := by
      refine Factor.weight_update (fun f hf => stage.built f (stage.members f (List.mem_of_mem_filter hf)))
        fun f hf => ?_
      exact mentions_eq_false.1 (by simpa using (List.mem_filter.1 hf).2)
    have split : Factor.weight fs = fun y => Factor.weight (fs.filter (!·.mentions v.id)) y *
        Factor.weight (fs.filter (·.mentions v.id)) y := by
      funext y
      rw [mul_comm]
      exact (Factor.weight_filter fs (·.mentions v.id) y).symm
    rw [Factor.weight_append, Factor.weight_singleton, Factor.valueIn_sumOut made, split,
      sumOver_mul fun p _ => others x p]

/-- A variable that is not live is passed over. -/
theorem Stage.eliminate_of_not_live (stage : d.Stage live carriers nodes n fs) {v : Variable}
    (dead : ¬ live v.id) (run : answer (Diagram.eliminate fs v) n = (.ok gs, m)) : gs = fs := by
  rcases eliminate_cases run with ⟨-, same, -⟩ | ⟨⟨f, hf, hm⟩, -⟩
  · exact same
  · exact absurd (stage.live_of_mem f hf v.id hm) dead

/-- An elimination sums the product over the live variables that it eliminates, each of them once. -/
theorem weight_run {hs : List Variable} (h : d.WellFormed) (sub : ∀ v ∈ hs, v ∈ d.chanceVars)
    (stage : d.Stage live carriers nodes n fs) (run : answer (hs.foldlM eliminate fs) n = (.ok gs, m)) :
    ∃ done : List Variable, done.Nodup ∧ (∀ v, v ∈ done ↔ v ∈ hs ∧ live v.id) ∧
      Factor.weight gs = enumerate done (Factor.weight fs) := by
  induction hs generalizing live nodes n fs with
  | nil =>
    cases run
    exact ⟨[], List.nodup_nil, by simp, rfl⟩
  | cons v rest ih =>
    rw [List.foldlM_cons, answer_bind_ok] at run
    obtain ⟨mid, k, first, run⟩ := run
    obtain ⟨hv, chance⟩ := mem_chanceVars.1 (sub v List.mem_cons_self)
    have hrest : ∀ u ∈ rest, u ∈ d.chanceVars := fun u hu => sub u (List.mem_cons_of_mem _ hu)
    obtain ⟨nodes', stage', -⟩ := stage.eliminate hv first
    obtain ⟨done, nodup, mem, weight⟩ := ih hrest stage' run
    have ids : ∀ u ∈ rest, (u.id ≠ v.id ↔ u ≠ v) := fun u hu =>
      not_congr ⟨h.inj u (mem_chanceVars.1 (hrest u hu)).1 v hv, congrArg _⟩
    -- a live variable is summed out here; of the rest none is live twice
    by_cases hl : live v.id
    · refine ⟨v :: done, List.nodup_cons.2 ⟨fun hm => ((mem v).1 hm).2.2 rfl, nodup⟩, fun u => ?_, ?_⟩
      · rw [List.mem_cons, List.mem_cons, mem]
        constructor
        · rintro (rfl | ⟨hu, hl', -⟩)
          · exact ⟨.inl rfl, hl⟩
          · exact ⟨.inr hu, hl'⟩
        · rintro ⟨rfl | hu, hl'⟩
          · exact .inl rfl
          · by_cases e : u = v
            · exact .inl e
            · exact .inr ⟨hu, hl', (ids u hu).2 e⟩
      · rw [weight, stage.weight_eliminate hv chance hl first, enumerate]
    · obtain rfl := stage.eliminate_of_not_live hl first
      refine ⟨done, nodup, fun u => ?_, weight⟩
      rw [mem, List.mem_cons]
      constructor
      · rintro ⟨hu, hl', -⟩
        exact ⟨.inr hu, hl'⟩
      · rintro ⟨rfl | hu, hl'⟩
        · exact absurd hl' hl
        · exact ⟨hu, hl', fun e => hl (e ▸ hl')⟩

/-! ## The probability of the evidence -/

theorem Conditional.valueIn_nonneg {v : Variable} {f : Factor Rat} (cond : d.Conditional v f)
    (x : World) : 0 ≤ f.valueIn x := by
  obtain ⟨number, scope, values, made, -, proper⟩ := cond
  obtain ⟨-, rfl⟩ := Factor.ofValues_eq_ok.1 made
  show 0 ≤ values[scope.indexAt x]?.getD 0
  cases hi : values[scope.indexAt x]? with
  | none => exact le_refl 0
  | some y => exact not_lt.1 (proper y (Array.mem_of_getElem? hi)).2

theorem entry_nonneg (h : d.WellFormed) {v : Variable} (hv : v ∈ d.chanceVars) (x : World) :
    0 ≤ d.entry v x := by
  obtain ⟨f, -, hf, cond⟩ := exists_conditional h hv
  rw [entry, hf]
  exact cond.valueIn_nonneg x

theorem entries_nonneg (h : d.WellFormed) {vars : List Variable} (sub : ∀ v ∈ vars, v ∈ d.chanceVars)
    (x : World) : 0 ≤ d.entries vars x := by
  apply List.prod_nonneg
  intro y hy
  obtain ⟨v, hv, rfl⟩ := List.mem_map.1 hy
  exact entry_nonneg h (sub v hv) x

theorem enumerate_nonneg {vars : List Variable} {g : World → Rat} (nonneg : ∀ x, 0 ≤ g x)
    (x : World) : 0 ≤ enumerate vars g x := by
  rw [← enumerate_zero vars x]
  exact enumerate_le (R := fun _ => True) (fun _ _ _ _ _ _ => trivial) (fun y _ => nonneg y) trivial

theorem mass_nonneg (h : d.WellFormed) (evidence : Slots) {g : World → Rat} (nonneg : ∀ x, 0 ≤ g x) :
    0 ≤ d.mass evidence g := by
  refine enumerate_nonneg (fun x => ?_) _
  split
  · refine mul_nonneg ?_ (nonneg x)
    rw [joint_eq h]
    exact entries_nonneg h (fun _ => id) x
  · exact le_refl 0

end Weight

end Counsel.Diagram
