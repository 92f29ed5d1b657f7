/-
Policies, and what they bring about. A policy gives every decision a choice that depends on what the
decision observes. The decisions without evidence are made in turn (`Policy.play`); since a decision
observes only earlier ones, the world that results is the only one in which every such decision has the
position that the policy chooses in it (`play_settled`, `Settled.unique`). The expected utility of a
policy is taken over the joint distribution of the chance variables, given the evidence.
-/
import Counsel.Proofs.Inference.Backward
import Counsel.Proofs.Inference.Joint

namespace Counsel.Diagram

open EliminationOrder Outcome

variable {α : Type}

/-- A choice for every decision, as a function of what the decision observes. -/
structure Policy (d : Diagram α) where
  choose : VarId → World → Nat
  informed : ∀ D ∈ d.vars, D.kind = .decision → ∀ x y : World, (∀ p ∈ D.parents, x p = y p) →
    choose D.id x = choose D.id y
  inDomain : ∀ D ∈ d.vars, D.kind = .decision → ∀ x, choose D.id x < D.card

/-- The world after the decisions without evidence have been made in turn. -/
def Policy.play {d : Diagram α} (policy : d.Policy) (evidence : Slots) (x : World) : World :=
  (openDecisions d evidence).foldl (fun y D => Function.update y D (policy.choose D y)) x

/-- The expected utility of a policy given the evidence, by enumeration of the joint distribution. -/
def expectedUtility (d : Diagram Rat) (evidence : Slots) (policy : d.Policy) : Rat :=
  d.mass evidence (fun x => d.utility.valueIn (policy.play evidence x)) / d.mass evidence fun _ => 1

variable {d : Diagram α} {policy : d.Policy} {evidence : Slots}

/-- Every decision without evidence has the position that the policy chooses, and nothing else has
changed. -/
structure Settled (policy : d.Policy) (evidence : Slots) (x y : World) : Prop where
  kept : ∀ id, id ∉ openDecisions d evidence → y id = x id
  chosen : ∀ id ∈ openDecisions d evidence, y id = policy.choose id y

/-- A choice does not depend on a variable that the decision does not observe. -/
theorem Policy.choose_update (policy : d.Policy) {D : Variable} (hD : D ∈ d.vars)
    (decision : D.kind = .decision) {id : VarId} (unobserved : id ∉ D.parents) (x : World) (p : Nat) :
    policy.choose D.id (Function.update x id p) = policy.choose D.id x := by
  refine policy.informed D hD decision _ _ fun q hq => Function.update_of_ne ?_ _ _
  rintro rfl
  exact unobserved hq

variable [Scalar α]

theorem exists_of_mem_openDecisions (h : d.WellFormed) {id : VarId}
    (hid : id ∈ openDecisions d evidence) :
    ∃ D ∈ d.vars, D.id = id ∧ D.kind = .decision ∧ evidence.isAssigned id = false := by
  obtain ⟨hm, free⟩ := mem_openDecisions.1 hid
  obtain ⟨D, hD, e, decision⟩ := h.mem_orderOf.1 hm
  exact ⟨D, hD, e, decision, free⟩

/-- A variable is no parent of itself. -/
theorem not_mem_own_parents (h : d.WellFormed) {v : Variable} (hv : v ∈ d.vars) : v.id ∉ v.parents := by
  intro own
  obtain ⟨pre, post, split⟩ := List.append_of_mem (h.mem_topological.2 ⟨v, hv, rfl⟩)
  have nodup := h.nodup_topological
  rw [split] at nodup
  have before := h.parentsFirst pre v.id post split v.id (by rwa [h.parentsOf_eq hv])
  exact (notMem_of_nodup nodup).1 before

/-- Making the decisions in turn settles them. -/
theorem play_settled (h : d.WellFormed) (policy : d.Policy) (evidence : Slots) (x : World) :
    Settled policy evidence x (policy.play evidence x) := by
  -- what holds after any first part of the decisions
  suffices first : ∀ pre, pre <+: openDecisions d evidence →
      let y := pre.foldl (fun y D => Function.update y D (policy.choose D y)) x
      (∀ id, id ∉ pre → y id = x id) ∧ ∀ id ∈ pre, y id = policy.choose id y by
    obtain ⟨kept, chosen⟩ := first _ (List.prefix_refl _)
    exact ⟨kept, chosen⟩
  intro pre hpre
  induction pre using List.reverseRecOn with
  | nil => exact ⟨fun _ _ => rfl, fun _ k => nomatch k⟩
  | append_singleton pre D ih =>
    obtain ⟨kept, chosen⟩ := ih ((List.prefix_append pre [D]).trans hpre)
    have nodup : (pre ++ [D]).Nodup := ((h.nodup_orderOf .decision).filter _).sublist hpre.sublist
    have hD : D ∈ openDecisions d evidence := hpre.subset (by simp)
    obtain ⟨v, hv, rfl, decision, -⟩ := exists_of_mem_openDecisions h hD
    have fresh : v.id ∉ pre := (notMem_of_nodup nodup).1
    simp only [List.foldl_append, List.foldl_cons, List.foldl_nil]
    generalize pre.foldl (fun y D => Function.update y D (policy.choose D y)) x = y at kept chosen
    constructor
    · intro id hid
      rw [List.mem_append, List.mem_singleton, not_or] at hid
      rw [Function.update_of_ne hid.2, kept id hid.1]
    · intro id hid
      rcases List.mem_append.1 hid with hid | hid
      · have ne : id ≠ v.id := fun e => fresh (e ▸ hid)
        obtain ⟨u, hu, rfl, decision', -⟩ :=
          exists_of_mem_openDecisions h (hpre.subset (List.mem_append_left _ hid))
        -- an earlier decision does not observe the one that is made now
        have k : d.Earlier u.id v.id := by
          refine List.Sublist.trans ?_ (List.Sublist.trans hpre.sublist List.filter_sublist)
          exact (List.singleton_sublist.2 hid).append (List.Sublist.refl [v.id])
        have unobserved := k.not_mem_parents h
        rw [h.parentsOf_eq hu] at unobserved
        rw [Function.update_of_ne ne, chosen u.id hid, policy.choose_update hu decision' unobserved]
      · rw [List.mem_singleton] at hid
        subst hid
        rw [Function.update_self, policy.choose_update hv decision (not_mem_own_parents h hv)]

/-- On a set of variables closed under parents, what has been settled is determined by the positions
there of the variables that are not decided. -/
theorem Settled.unique (h : d.WellFormed) {S : VarId → Prop}
    (closed : ∀ id, S id → ∀ p ∈ d.parentsOf id, S p) {x y x' y' : World}
    (settled : Settled policy evidence x y) (settled' : Settled policy evidence x' y')
    (same : ∀ id, S id → id ∉ openDecisions d evidence → x id = x' id) :
    ∀ id, S id → y id = y' id := by
  have undecided : ∀ id, S id → id ∉ openDecisions d evidence → y id = y' id := fun id hS hid => by
    rw [settled.kept id hid, settled'.kept id hid, same id hS hid]
  -- along the topological order, parents come first
  suffices first : ∀ pre, pre <+: d.topological → ∀ id ∈ pre, S id → y id = y' id by
    intro id hS
    by_cases hid : id ∈ openDecisions d evidence
    · obtain ⟨D, hD, rfl, -⟩ := exists_of_mem_openDecisions h hid
      exact first _ (List.prefix_refl _) D.id (h.mem_topological.2 ⟨D, hD, rfl⟩) hS
    · exact undecided id hS hid
  intro pre hpre
  induction pre using List.reverseRecOn with
  | nil => exact fun _ k => nomatch k
  | append_singleton pre n ih =>
    have ih := ih ((List.prefix_append pre [n]).trans hpre)
    intro id hid hS
    rcases List.mem_append.1 hid with hid | hid
    · exact ih id hid hS
    · rw [List.mem_singleton] at hid
      subst hid
      by_cases hopen : id ∈ openDecisions d evidence
      · obtain ⟨D, hD, rfl, decision, -⟩ := exists_of_mem_openDecisions h hopen
        rw [settled.chosen _ hopen, settled'.chosen _ hopen]
        apply policy.informed D hD decision y y'
        intro p hp
        obtain ⟨post, split⟩ := hpre
        rw [List.append_assoc, List.singleton_append] at split
        rw [← h.parentsOf_eq hD] at hp
        exact ih p (h.parentsFirst pre D.id post split.symm p hp) (closed _ hS p hp)
      · exact undecided id hS hopen

end Counsel.Diagram
