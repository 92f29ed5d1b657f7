/-
Solving with every variable observed. Nothing is left to eliminate, so every factor is filled in. The
probability of evidence on every chance variable is the product of the entries of the tables that it selects
(`evidenceProbability_of_disclosed`); where all of them are positive it divides the product that is left,
and the expected utility is the entry of the utility table, along whatever order (`optimize_of_certain`).
-/
import Counsel.Proofs.Inference.Backward
import Counsel.Proofs.Inference.Posterior

namespace Counsel

open Outcome World EliminationOrder

theorem Factor.weight_pos {fs : List (Factor Rat)} {x : World} (h : ∀ f ∈ fs, 0 < f.valueIn x) :
    0 < Factor.weight fs x := by
  apply List.prod_pos
  intro y hy
  obtain ⟨f, hf, rfl⟩ := List.mem_map.1 hy
  exact h f hf

namespace Diagram

variable {d : Diagram Rat} {evidence : Slots} {nodes : Factor Rat → Prop} {live : VarId → Prop}
  {carriers n : Nat} {gs : List (Factor Rat)}

/-- Where nothing that is live is left, no factor has a variable. -/
theorem Stage.no_vars (stage : d.Stage live carriers nodes n gs) (dead : ∀ id, ¬ live id) :
    ∀ f ∈ gs, f.scope.vars = [] := fun f hf =>
  List.eq_nil_iff_forall_not_mem.2 fun v hv =>
    dead v.id (stage.live_of_mem f hf v.id (Scope.mem_ids.2 ⟨v, hv, rfl⟩))

/-- Every chance variable is observed. -/
def Disclosed (d : Diagram Rat) (evidence : Slots) : Prop :=
  ∀ v ∈ d.chanceVars, evidence.isAssigned v.id = true

/-- Every variable is observed. -/
def Certain (d : Diagram Rat) (evidence : Slots) : Prop :=
  ∀ v ∈ d.vars, evidence.isAssigned v.id = true

theorem Certain.disclosed (certain : d.Certain evidence) : d.Disclosed evidence := fun v hv =>
  certain v (mem_chanceVars.1 hv).1

/-- Where every chance variable is marked, all tables are. -/
theorem markedFactors_of_all (h : d.WellFormed) {marks : Array Bool}
    (all : ∀ v ∈ d.chanceVars, Marked marks v.id) : d.markedFactors marks = d.probabilityFactors := by
  refine List.filter_eq_self.2 fun f hf => ?_
  obtain ⟨v, hv, cond⟩ := forall₂_right_mem h.conditionals hf
  rw [child?_conditional cond, Option.any_some]
  exact all v hv

section Disclosed

variable (h : d.WellFormed) (admits : d.Admits evidence) (disclosed : d.Disclosed evidence)
include disclosed

theorem Disclosed.not_hidden (marks : Array Bool) (id : VarId) : ¬ d.Hidden marks evidence id := by
  rintro ⟨free, -, v, hv, rfl⟩
  rw [disclosed v hv] at free
  cases free

include h

/-- Where the evidence names no chance variable there is none, and no table. -/
theorem Disclosed.joint_of_no_chance (none_observed : d.observedChance evidence = []) (x : World) :
    d.joint x = 1 := by
  have tables : d.probabilityFactors = [] := by
    refine List.eq_nil_iff_forall_not_mem.2 fun f hf => ?_
    obtain ⟨v, hv, -⟩ := forall₂_right_mem h.conditionals hf
    have observed := (mem_observedChance h (mem_chanceVars.1 hv).1).2 ⟨disclosed v hv, (mem_chanceVars.1 hv).2⟩
    rw [none_observed] at observed
    cases observed
  rw [joint, tables]
  rfl

include admits

/-- Evidence on every chance variable is as likely as the product of the entries that it selects. -/
theorem evidenceProbability_of_disclosed (n : Nat) :
    ∃ m, answer (d.evidenceProbability evidence) n = (.ok (d.joint evidence.world), m) := by
  by_cases none_observed : d.observedChance evidence = []
  · rw [disclosed.joint_of_no_chance h none_observed]
    exact ⟨n, evidenceProbability_of_unobserved none_observed n⟩
  · obtain ⟨gs, k, nodes, projected, -, same⟩ := exists_stage h admits (behind_closed h admits) n
    have nothing : d.hidden (d.behind evidence) evidence none d.chanceOrder.reverse = [] :=
      List.eq_nil_iff_forall_not_mem.2 fun v hv =>
        disclosed.not_hidden _ v.id ((mem_hidden h).1 hv).2.1
    have all : d.markedFactors (d.behind evidence) = d.probabilityFactors :=
      markedFactors_of_all h fun v hv => behind_seen h admits v hv (disclosed v hv)
    have eliminated : answer ((d.hidden (d.behind evidence) evidence none d.chanceOrder.reverse).foldlM
        eliminate gs) k = (.ok gs, k) := by
      rw [nothing]
      rfl
    rw [evidenceProbability_of_eliminated h admits none_observed projected eliminated,
      Factor.productValue_eq, weight_projected same (agrees_world evidence), all]
    exact ⟨k, rfl⟩

end Disclosed

section Certain

variable (h : d.WellFormed) (admits : d.Admits evidence) (certain : d.Certain evidence)
include certain

theorem not_active_of_certain (id : VarId) : ¬ d.Active evidence id := by
  rintro ⟨v, hv, rfl, part⟩
  have free := (takesPart_iff.1 part).1
  rw [certain v hv] at free
  cases free

include h admits

/-- With every variable observed there is nothing to eliminate along an order, whichever it is, and if what is
observed is possible the expected utility is that of the evidence. -/
theorem optimize_of_certain (positive : ∀ f ∈ d.probabilityFactors, 0 < f.valueIn evidence.world)
    {observations : Assignment} (valid : d.slotsOf observations = .ok evidence) {order : EliminationOrder}
    (consistent : d.Consistent order.ids (d.requisiteChance evidence) evidence) (n : Nat) :
    ∃ s m, answer (d.optimize order observations) n = (.ok s, m) ∧
      s.expectedUtility = d.utility.valueIn evidence.world := by
  have range : evidence.world.InRange d.vars := h.world_inRange admits.within
  obtain ⟨gs, k, nodes, -, stage, projected, run⟩ := optimize_eq_sweep h valid consistent n
  have nothing : d.sweepOf evidence order = [] :=
    List.eq_nil_iff_forall_not_mem.2 fun v hv => by
      obtain ⟨hv, part, -⟩ := (mem_participants h).1 hv
      exact not_active_of_certain certain v.id ⟨v, hv, rfl, part⟩
  -- observed variables are targets, so no table is barren
  have all : d.markedFactors (d.requisiteChance evidence) = d.probabilityFactors :=
    markedFactors_of_all h fun v hv => by
      obtain ⟨hv, chance⟩ := mem_chanceVars.1 hv
      exact (marked_requisite h admits.known hv).2
        ⟨chance, .target (List.mem_append_right _ (Slots.mem_assigned_ids.2 (certain v hv)))⟩
  have left : Factor.weight gs evidence.world =
      d.joint evidence.world * d.utility.valueIn evidence.world := by
    rw [weight_projected projected (agrees_world evidence), startTables, all, Factor.weight_append,
      Factor.weight_singleton, joint]
  have likely : 0 < d.joint evidence.world := Factor.weight_pos positive
  rw [run, nothing, List.foldlM_nil, pure_bind]
  unfold conclude expectation
  rw [Factor.answerFrom_productOf stage.toGraph stage.members
    (stage.no_vars (not_active_of_certain certain)) range, answer_bind,
    answer_bind_of_ok (answer_ofModel_ok _ k), Factor.productValue_eq, left]
  split_ifs with none_observed
  · have no_chance : d.observedChance evidence = [] := by
      rw [observedChance, List.isEmpty_iff.1 none_observed]
      rfl
    refine ⟨_, k, rfl, ?_⟩
    rw [certain.disclosed.joint_of_no_chance h no_chance, one_mul]
  · obtain ⟨m, probability⟩ := evidenceProbability_of_disclosed h admits certain.disclosed k
    rw [answer_bind_of_ok probability, if_neg (by simp [Scalar.isFinite, likely])]
    exact ⟨_, m, rfl, mul_div_cancel_left₀ _ likely.ne'⟩

end Certain

end Diagram

end Counsel
