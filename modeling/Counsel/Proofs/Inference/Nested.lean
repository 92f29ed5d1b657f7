/-
Sums and choices nested in the order of an elimination. A policy in place of the maxima gives a nested
sum (`nest`): a chance variable is summed over, and a decision gets the position that the policy
chooses. When no decision observes a variable that stands before it, the choices can be made before all
sums (`nest_eq_enumerate`), and making them along the order is making them in turn
(`settle_eq_play`). A nested sum grows with what it sums (`nest_le`).
-/
import Counsel.Proofs.Inference.Policy
import Counsel.Proofs.Inference.Sweep

namespace Counsel.Diagram

open World EliminationOrder

/-- Along an order no decision observes a variable that stands before it, and no two variables of it
are the same. -/
structure Foreseen (d : Diagram Rat) (vars : List Variable) : Prop where
  sub : ∀ v ∈ vars, v ∈ d.vars
  nodup : (vars.map (·.id)).Nodup
  informed : vars.Pairwise fun v D => D.kind = .decision → v.id ∉ D.parents

variable {d : Diagram Rat} {vars : List Variable} {evidence : Slots}

/-- The choices of a policy for the decisions of an order, the last one first. -/
def settle (policy : d.Policy) : List Variable → World → World
  | [], x => x
  | v :: rest, x =>
    let y := settle policy rest x
    if v.isDecision then Function.update y v.id (policy.choose v.id y) else y

/-- The sum of a function over the chance variables of an order, the first one innermost, with the
choices of a policy for the decisions. -/
def nest (policy : d.Policy) : List Variable → (World → Rat) → World → Rat
  | [], g => g
  | v :: rest, g =>
    nest policy rest
      (if v.isDecision then fun x => g (Function.update x v.id (policy.choose v.id x)) else sumOver v g)

theorem Foreseen.tail {v : Variable} (h : d.Foreseen (v :: vars)) : d.Foreseen vars where
  sub u hu := h.sub u (List.mem_cons_of_mem _ hu)
  nodup := (List.nodup_cons.1 h.nodup).2
  informed := h.informed.of_cons

theorem Foreseen.ne {v : Variable} (h : d.Foreseen (v :: vars)) {u : Variable} (hu : u ∈ vars) :
    u.id ≠ v.id := fun e =>
  (List.nodup_cons.1 h.nodup).1 (List.mem_map.2 ⟨u, hu, e⟩)

/-- The participants of a consistent order. -/
theorem foreseen_sweepOf (h : d.WellFormed) {order : EliminationOrder}
    (consistent : d.Consistent order.ids (d.requisiteChance evidence) evidence) :
    d.Foreseen (d.sweepOf evidence order) := by
  have sub := @sweepOf_sub _ _ d evidence h order
  refine ⟨sub, nodup_ids_of_subset h sub (nodup_participants h consistent.nodup), ?_⟩
  suffices first : ∀ pre post, d.sweepOf evidence order = pre ++ post →
      pre.Pairwise fun v D => D.kind = .decision → v.id ∉ D.parents from first _ [] (by simp)
  intro pre
  induction pre using List.reverseRecOn with
  | nil => exact fun _ _ => .nil
  | append_singleton pre D ih =>
    intro post split
    rw [List.append_assoc, List.singleton_append] at split
    rw [List.pairwise_append]
    refine ⟨ih _ split, List.pairwise_singleton _ _, fun v hv u hu decision => ?_⟩
    rw [List.mem_singleton.1 hu] at decision ⊢
    exact consistent.participants_informed h split decision v hv

/-! ## Choices -/

/-- Choices do not depend on a variable that the decisions do not observe. -/
theorem settle_update (policy : d.Policy) {v : Variable} (h : d.Foreseen (v :: vars)) (x : World)
    (p : Nat) : settle policy vars (Function.update x v.id p) =
      Function.update (settle policy vars x) v.id p := by
  induction vars with
  | nil => rfl
  | cons u rest ih =>
    have h' : d.Foreseen (v :: rest) := by
      refine ⟨fun w hw => h.sub w ?_, ?_, ?_⟩
      · exact (List.mem_cons.1 hw).elim (· ▸ List.mem_cons_self)
          fun hw => List.mem_cons_of_mem _ (List.mem_cons_of_mem _ hw)
      · exact h.nodup.sublist (((List.sublist_cons_self u rest).cons_cons v).map _)
      · exact h.informed.sublist ((List.sublist_cons_self u rest).cons_cons v)
    rw [settle, settle, ih h']
    split
    next decision =>
      have decision := isDecision_iff.1 decision
      have unobserved := (List.pairwise_cons.1 h.informed).1 u List.mem_cons_self decision
      rw [policy.choose_update (h.sub u (by simp)) decision unobserved,
        Function.update_comm (h.ne List.mem_cons_self)]
    next => rfl

/-- What the choices along an order lead to: nothing but the decisions of the order has changed, and
these have the positions that the policy chooses. -/
theorem settle_spec (wf : d.WellFormed) (policy : d.Policy) (h : d.Foreseen vars) (x : World) :
    (∀ id, (∀ v ∈ vars, v.kind = .decision → v.id ≠ id) → settle policy vars x id = x id) ∧
      ∀ D ∈ vars, D.kind = .decision →
        settle policy vars x D.id = policy.choose D.id (settle policy vars x) := by
  induction vars with
  | nil => exact ⟨fun _ _ => rfl, fun _ hD => nomatch hD⟩
  | cons v rest ih =>
    obtain ⟨kept, chosen⟩ := ih h.tail
    have hv := h.sub v List.mem_cons_self
    rw [settle]
    generalize settle policy rest x = y at kept chosen
    split
    next decision =>
      have decision := isDecision_iff.1 decision
      constructor
      · intro id hid
        rw [Function.update_of_ne (Ne.symm (hid v List.mem_cons_self decision))]
        exact kept id fun u hu => hid u (List.mem_cons_of_mem _ hu)
      · intro D hD decision'
        rcases List.mem_cons.1 hD with rfl | hD
        · rw [Function.update_self, policy.choose_update hv decision (not_mem_own_parents wf hv)]
        · have unobserved := (List.pairwise_cons.1 h.informed).1 D hD decision'
          rw [Function.update_of_ne (h.ne hD), chosen D hD decision',
            policy.choose_update (h.tail.sub D hD) decision' unobserved]
    next chance =>
      refine ⟨fun id hid => kept id fun u hu => hid u (List.mem_cons_of_mem _ hu), fun D hD decision => ?_⟩
      rcases List.mem_cons.1 hD with rfl | hD
      · exact absurd (isDecision_iff.2 decision) chance
      · exact chosen D hD decision

/-- The choices along a consistent order are the choices in turn. -/
theorem settle_eq_play (h : d.WellFormed) {order : EliminationOrder}
    (consistent : d.Consistent order.ids (d.requisiteChance evidence) evidence) (policy : d.Policy)
    (x : World) : settle policy (d.sweepOf evidence order) x = policy.play evidence x := by
  obtain ⟨kept, chosen⟩ := settle_spec h policy (foreseen_sweepOf h consistent) x
  have listed : ∀ {D : Variable}, D ∈ d.sweepOf evidence order ∧ D.kind = .decision ↔
      D ∈ d.vars ∧ D.kind = .decision ∧ evidence.isAssigned D.id = false := by
    intro D
    rw [mem_participants h]
    constructor
    · exact fun k => ⟨k.1.1, k.2, (takesPart_iff.1 k.1.2.1).1⟩
    · rintro ⟨hD, decision, free⟩
      have part : takesPart (d.requisiteChance evidence) evidence D = true :=
        takesPart_iff.2 ⟨free, .inl decision⟩
      exact ⟨⟨hD, part, consistent.complete D hD part⟩, decision⟩
  have settled : Settled policy evidence x (settle policy (d.sweepOf evidence order) x) := by
    constructor
    · refine fun id hid => kept id fun D hD decision e => hid ?_
      obtain ⟨hm, -, free⟩ := listed.1 ⟨hD, decision⟩
      subst e
      exact mem_openDecisions.2 ⟨(mem_decisionOrder h hm).2 decision, free⟩
    · intro id hid
      obtain ⟨D, hD, rfl, decision, free⟩ := exists_of_mem_openDecisions h hid
      exact chosen D (listed.2 ⟨hD, decision, free⟩).1 decision
  funext id
  exact settled.unique h (S := fun _ => True) (fun _ _ _ _ => trivial) (play_settled h policy evidence x)
    (fun _ _ _ => rfl) id trivial

/-! ## Nested sums -/

/-- The choices can be made before all sums. -/
theorem nest_eq_enumerate (policy : d.Policy) (h : d.Foreseen vars) (g : World → Rat) (x : World) :
    nest policy vars g x =
      enumerate (vars.filter (!·.isDecision)) (fun y => g (settle policy vars y)) x := by
  induction vars generalizing g with
  | nil => rfl
  | cons v rest ih =>
    rw [nest, ih h.tail]
    cases kind : v.isDecision with
    | true =>
      rw [List.filter_cons_of_neg (by simp [kind])]
      simp only [settle, kind, if_true]
    | false =>
      rw [List.filter_cons_of_pos (by simp [kind]), enumerate]
      simp only [settle, kind, Bool.false_eq_true, if_false]
      -- the sum over the variable and the choices, which do not depend on it, change places
      congr 1
      funext y
      refine Finset.sum_congr rfl fun p _ => congrArg g ?_
      exact (settle_update policy h y p).symm

/-- Nested sums compare only worlds that they lead to. -/
theorem nest_le {R : World → Prop} (policy : d.Policy) (h : d.Foreseen vars)
    (step : ∀ v ∈ vars, ∀ y, R y → ∀ p < v.card, R (Function.update y v.id p)) {g k : World → Rat}
    (le : ∀ y, R y → g y ≤ k y) {x : World} (hx : R x) :
    nest policy vars g x ≤ nest policy vars k x := by
  induction vars generalizing g k with
  | nil => exact le x hx
  | cons v rest ih =>
    refine ih h.tail (fun u hu => step u (List.mem_cons_of_mem _ hu)) fun y hy => ?_
    have hv := step v List.mem_cons_self y hy
    split
    next decision =>
      exact le _ (hv _ (policy.inDomain v (h.sub v List.mem_cons_self) (isDecision_iff.1 decision) y))
    next => exact Finset.sum_le_sum fun p hp => le _ (hv p (Finset.mem_range.1 hp))

end Counsel.Diagram
