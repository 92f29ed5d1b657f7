/-
The numbers of factors do not matter. Two eliminations that begin at different numbers make factors that
differ in their numbers only (`Factor.congruence_renumbered`), so both come to the same result or fail for
the same reason (`solve_parallel`). What a joint assignment is worth is therefore a function of the
diagram (`worth?`), whenever it is asked for (`worth?_eq`).
-/
import Counsel.Proofs.Inference.Backward
import Counsel.Proofs.Inference.Congruence

namespace Counsel

open Outcome EliminationOrder

variable {α : Type} [Scalar α]

namespace Factor

/-- The same factor, perhaps under another number. -/
structure Renumbered (f g : Factor α) : Prop where
  scope : f.scope = g.scope
  role : f.role = g.role
  value : f.valueIn = g.valueIn

theorem Renumbered.refl (f : Factor α) : Renumbered f f := ⟨rfl, rfl, rfl⟩

theorem Renumbered.sameShape {f g : Factor α} (h : Renumbered f g) : SameShape f g := ⟨h.scope, h.role⟩

theorem renumbered_all (fs : List (Factor α)) : List.Forall₂ Renumbered fs fs :=
  List.forall₂_same.2 fun f _ => .refl f

variable {fs gs : List (Factor α)}

theorem sameShape_of_renumbered (h : List.Forall₂ Renumbered fs gs) : List.Forall₂ SameShape fs gs :=
  h.imp fun _ _ => Renumbered.sameShape

theorem productIn_renumbered (h : List.Forall₂ Renumbered fs gs) (x : World) (acc : α) :
    productIn fs x acc = productIn gs x acc := by
  induction h generalizing acc with
  | nil => rfl
  | @cons f g _ _ head _ ih =>
    have same : (f.cellIn x).1 = (g.cellIn x).1 := congrFun head.value x
    simp only [productIn, same, ih]

theorem productValue_renumbered (h : List.Forall₂ Renumbered fs gs) (x : World) :
    productValue fs x = productValue gs x := by
  unfold productValue
  generalize (1 : α) = acc
  induction h generalizing acc with
  | nil => rfl
  | cons head _ ih => rw [List.foldl_cons, List.foldl_cons, head.value, ih]

/-! ## Constructions -/

variable {f g : Factor α} (n m : Nat)

theorem observe_renumbered (h : Renumbered f g) (evidence : Slots) :
    Matched Eq Renumbered (observe n f evidence) (observe m g evidence) := by
  unfold observe
  rw [h.scope]
  refine (Matched.refl (R := Eq) (fun _ => rfl) (fun _ => rfl) _).bind ?_
  rintro scope _ rfl
  refine .ok ⟨rfl, h.role, funext fun x => ?_⟩
  exact congrFun h.value _

theorem sumOut_renumbered (h : List.Forall₂ Renumbered fs gs) (axis : Variable) :
    Matched Eq Renumbered (sumOut n axis fs) (sumOut m axis gs) := by
  unfold sumOut
  rw [scopes_of_sameShape (sameShape_of_renumbered h),
    any_carriesUtility_of_sameShape (sameShape_of_renumbered h)]
  refine (Matched.refl (R := Eq) (fun _ => rfl) (fun _ => rfl) _).bind ?_
  rintro scope _ rfl
  refine .ok ⟨rfl, rfl, funext fun x => ?_⟩
  simp only [valueIn, cellIn, productIn_renumbered h]

theorem maxOut_renumbered (h : Renumbered f g) (axis : Variable) :
    Matched Eq Renumbered (maxOut n axis f) (maxOut m axis g) := by
  unfold maxOut
  rw [h.scope, h.sameShape.carriesUtility]
  refine (Matched.refl (R := Eq) (fun _ => rfl) (fun _ => rfl) _).bind ?_
  rintro scope _ rfl
  refine .ok ⟨rfl, rfl, funext fun x => ?_⟩
  have same : ∀ y, (f.cellIn y).1 = (g.cellIn y).1 := congrFun h.value
  simp only [valueIn, cellIn, same]

/-- Every construction makes the same factor of factors that differ in their numbers. -/
theorem congruence_renumbered (evidence : Slots) :
    Congruence (Renumbered (α := α)) evidence evidence where
  assigned _ := rfl
  scope := Renumbered.scope
  role := Renumbered.role
  observe h n m := observe_renumbered n m h evidence
  sumOut h axis n m := sumOut_renumbered n m h axis
  maxOut h axis n m := maxOut_renumbered n m h axis

end Factor

namespace Diagram

open Factor Infer

variable {fs gs : List (Factor α)} {d : Diagram α} {evidence : Slots}

/-! ## Results -/

theorem corresponds_refl (d : Diagram α) : d.Corresponds Renumbered d :=
  ⟨rfl, rfl, renumbered_all _, .refl _⟩

theorem expectation_parallel (h : d.WellFormed) (admits : d.Admits evidence)
    (same : List.Forall₂ Renumbered fs gs) {nodes nodes' : Factor α → Prop}
    (graph : Graph d.vars nodes) (members : ∀ f ∈ fs, nodes f) (graph' : Graph d.vars nodes')
    (members' : ∀ f ∈ gs, nodes' f) (empty : ∀ f ∈ fs, f.scope.vars = [])
    (empty' : ∀ f ∈ gs, f.scope.vars = []) :
    Parallel Eq (d.expectation fs evidence) (d.expectation gs evidence) := by
  have range : evidence.world.InRange d.vars := h.world_inRange admits.within
  unfold expectation
  rw [answerFrom_productOf graph members empty range,
    answerFrom_productOf graph' members' empty' range]
  refine (Parallel.ofModel (R := Eq) (.ok (productValue_renumbered same _))).bind ?_
  rintro a _ rfl
  split
  · exact .pure rfl
  · have probable : Parallel Eq (d.evidenceProbability evidence) (d.evidenceProbability evidence) :=
      d.corresponds_refl.evidenceProbability_parallel (congruence_renumbered evidence) h h admits admits rfl
        fun _ _ same => productValue_renumbered same _
    refine probable.bind ?_
    rintro p _ rfl
    split
    · exact .throw rfl
    · exact .pure rfl

/-- Two solutions for the same observations, whatever numbers were given out before, come to the same
value, or both fail, for the same reason but for the numbers of factors. -/
theorem solve_parallel (h : d.WellFormed) (observations : Assignment) :
    Parallel (fun a b => a.expectedUtility = b.expectedUtility) (d.solve observations)
      (d.solve observations) := by
  intro n m
  rcases valid : d.slotsOf observations with e | evidence
  · unfold solve
    rw [valid]
    exact .error rfl
  have admits := h.admits_of_slotsOf valid
  have consistent : d.Consistent (forEvidence d evidence).ids (d.requisiteChance evidence) evidence :=
    consistent_forEvidence h
  obtain ⟨fs, k, nodes, projected, stage, -, run⟩ := optimize_eq_sweep h valid consistent n
  obtain ⟨gs, l, nodes', projected', stage', -, run'⟩ := optimize_eq_sweep h valid consistent m
  have keeps := congruence_renumbered (α := α) evidence
  have filled := keeps.project_parallel (renumbered_all (d.startTables evidence)) n m
  rw [projected, projected'] at filled
  cases filled with
  | ok filled =>
    have swept := keeps.sweep_parallel (d.sweepOf evidence (forEvidence d evidence))
      (a := ⟨fs, []⟩) (b := ⟨gs, []⟩) filled
    have concluded := answers_bind (S := fun a b : Solution α => a.expectedUtility = b.expectedUtility)
      (f := d.conclude evidence) (g := d.conclude evidence) (swept k l)
      fun s t k' l' ran ran' abreast => by
        obtain ⟨_, last, -⟩ := stage_sweep (sweepOf_sub h) stage ran
        obtain ⟨_, last', -⟩ := stage_sweep (sweepOf_sub h) stage' ran'
        have same := expectation_parallel h admits abreast last.toGraph last.members last'.toGraph
          last'.members (last.residue h consistent).1 (last'.residue h consistent).1
        have ended : Parallel (fun a b : Solution α => a.expectedUtility = b.expectedUtility)
          (d.conclude evidence s) (d.conclude evidence t) := same.bind fun _ _ k => .pure k
        exact ended k' l'
    unfold solve
    rw [valid, answer_bind_of_ok (answer_ofModel_ok evidence n),
      answer_bind_of_ok (answer_ofModel_ok evidence m), run, run']
    exact concluded

/-- What an assignment is worth: the value of the diagram under these observations, if it can be solved
for them. -/
def worth? (d : Diagram α) (observations : Assignment) : Option α :=
  (answer (d.solve observations) 0).1.toOption.map (·.expectedUtility)

/-- Whenever a diagram is solved for some observations, it comes to what they are worth. -/
theorem worth?_eq (h : d.WellFormed) (observations : Assignment) (n : Nat) :
    (answer (d.solve observations) n).1.toOption.map (·.expectedUtility) = d.worth? observations := by
  have matched := solve_parallel h observations n 0
  unfold worth?
  generalize (answer (d.solve observations) n).1 = r at matched ⊢
  generalize (answer (d.solve observations) 0).1 = r' at matched ⊢
  cases matched with
  | ok same => exact congrArg some same
  | error => rfl

end Diagram

end Counsel
