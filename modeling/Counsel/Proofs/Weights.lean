/-
Weights at the rational numbers. A total is a sum (`total_eq_sum`), and weights that are not negative are
normalised into shares that add up to one, unless all of them are zero (`normalize_eq_none`,
`normalize_shares`). A share of a whole is compared with another one crosswise (`share_le_share`), and an
average lies between what it averages. Of any numbers that compare lawfully, undefined ones among them, the
largest entry of a list bounds all that are defined (`largest_all_le_iff`), and the first of the largest ones
is the one that is chosen (`argmaxFirst_eq`).
-/
import Mathlib
import Counsel.Scalar.Weights

namespace Counsel.Scalar

@[simp] theorem ofNat_eq (n : Nat) : (ofNat n : Rat) = n := rfl

/-! ## Totals -/

theorem total_eq_sum (l : List Rat) : total l = l.sum := by
  cases l with
  | nil => rfl
  | cons x rest =>
    show rest.foldl (· + ·) x = (x :: rest).sum
    rw [List.sum_cons]
    induction rest generalizing x with
    | nil => exact (add_zero x).symm
    | cons y rest ih => rw [List.foldl_cons, ih, List.sum_cons, add_assoc]

theorem normalize_eq (l : List Rat) :
    normalize l = if 0 < l.sum then some (l.map (· / l.sum)) else none := by
  unfold normalize
  rw [total_eq_sum]
  by_cases pos : 0 < l.sum
  · rw [if_pos pos]
    exact if_pos (decide_eq_true pos)
  · rw [if_neg pos]
    exact if_neg (by simp [isFinite, pos])

section Normalized

variable {weights : List Rat} (nonneg : ∀ w ∈ weights, 0 ≤ w)

include nonneg

theorem sum_eq_zero_iff : weights.sum = 0 ↔ ∀ w ∈ weights, w = 0 := by
  induction weights with
  | nil => simp
  | cons w rest ih =>
    rw [List.forall_mem_cons] at nonneg
    rw [List.sum_cons, add_eq_zero_iff_of_nonneg nonneg.1 (List.sum_nonneg nonneg.2), ih nonneg.2,
      List.forall_mem_cons]

/-- Weights cannot be normalised only if all of them are zero. -/
theorem normalize_eq_none : normalize weights = none ↔ ∀ w ∈ weights, w = 0 := by
  rw [normalize_eq, ← sum_eq_zero_iff nonneg]
  have le : 0 ≤ weights.sum := List.sum_nonneg nonneg
  split
  next pos => simp [pos.ne']
  next not_pos => simp [le.antisymm' (not_lt.1 not_pos)]

/-- Normalised weights are shares of one. -/
theorem normalize_shares {shares : List Rat} (h : normalize weights = some shares) :
    shares.length = weights.length ∧ (∀ x ∈ shares, 0 ≤ x) ∧ shares.sum = 1 := by
  rw [normalize_eq] at h
  split at h
  next pos =>
    cases h
    refine ⟨List.length_map _, List.forall_mem_map.2 fun w hw => div_nonneg (nonneg w hw) pos.le, ?_⟩
    simp only [div_eq_mul_inv]
    rw [List.sum_map_mul_right, List.map_id', mul_inv_cancel₀ pos.ne']
  next => cases h

end Normalized

/-- Weights of which one gains on all the others give it a greater share. -/
theorem normalize_le_normalize {ι : Type} {items : List ι} {f g : ι → Rat} {i : Nat} {item : ι}
    (there : items[i]? = some item) (gains : ∀ other ∈ items, f item * g other ≤ g item * f other)
    {shares shares' : List Rat} (h : normalize (items.map f) = some shares)
    (h' : normalize (items.map g) = some shares') :
    ∃ x y, shares[i]? = some x ∧ shares'[i]? = some y ∧ x ≤ y := by
  rw [normalize_eq] at h h'
  split at h
  next pos =>
    split at h'
    next pos' =>
      cases h
      cases h'
      refine ⟨f item / (items.map f).sum, g item / (items.map g).sum, by simp [there], by simp [there], ?_⟩
      rw [div_le_div_iff₀ pos pos', ← List.sum_map_mul_left, ← List.sum_map_mul_left]
      exact List.sum_le_sum gains
    next => cases h'
  next => cases h

/-! ## Shares and averages -/

theorem share_of_finite {α : Type} [Scalar α] {part other fallback : α} (pos : 0 < part + other)
    (finite : isFinite (part + other) = true) : share part other fallback = part / (part + other) :=
  if_pos (by simp [pos, finite])

variable {part other part' other' fallback : Rat}

theorem share_of_pos (pos : 0 < part + other) : share part other fallback = part / (part + other) :=
  share_of_finite pos rfl

theorem share_nonneg (nonneg : 0 ≤ part) (pos : 0 < part + other) : 0 ≤ share part other fallback :=
  share_of_pos pos ▸ div_nonneg nonneg pos.le

theorem share_le_one (nonneg : 0 ≤ other) (pos : 0 < part + other) :
    share part other fallback ≤ 1 := by
  rw [share_of_pos pos, div_le_one pos]
  exact le_add_of_nonneg_right nonneg

/-- Two shares are compared by what each part makes with the other part of the other whole. -/
theorem share_le_share {fallback' : Rat} (pos : 0 < part + other) (pos' : 0 < part' + other')
    (cross : part * other' ≤ part' * other) :
    share part other fallback ≤ share part' other' fallback' := by
  rw [share_of_pos pos, share_of_pos pos', div_le_div_iff₀ pos pos', mul_add, mul_add,
    mul_comm part' part]
  exact add_le_add_right cross _

section Average

variable {previous observation previous' observation' weight : Rat} (nonneg : 0 ≤ weight)
  (le_one : weight ≤ 1)

include nonneg le_one

theorem blend_le_blend (le : previous ≤ previous') (le' : observation ≤ observation') :
    blend previous observation weight ≤ blend previous' observation' weight :=
  add_le_add (mul_le_mul_of_nonneg_left le (sub_nonneg.2 le_one)) (mul_le_mul_of_nonneg_left le' nonneg)

omit nonneg le_one in
theorem blend_self (x : Rat) : blend x x weight = x := by
  show (1 - weight) * x + weight * x = x
  ring

end Average

/-! ## Order -/

/-- A number is defined if it equals itself. -/
def Defined {α : Type} [Scalar α] (x : α) : Prop := (x == x) = true

/-- Numbers that compare as numbers do: those that are defined are in a linear preorder, and the others are
neither below nor above any. -/
class LawfulOrder (α : Type) [Scalar α] : Prop where
  defined_of_le {x y : α} (h : x ≤ y) : Defined x ∧ Defined y
  le_total {x y : α} (hx : Defined x) (hy : Defined y) : x ≤ y ∨ y ≤ x
  le_trans {x y z : α} (h : x ≤ y) (h' : y ≤ z) : x ≤ z
  lt_iff {x y : α} : x < y ↔ x ≤ y ∧ ¬ y ≤ x

theorem defined_rat (x : Rat) : Defined x := beq_self_eq_true x

instance : LawfulOrder Rat where
  defined_of_le {x y} _ := ⟨defined_rat x, defined_rat y⟩
  le_total {x y} _ _ := le_total x y
  le_trans := le_trans
  lt_iff := lt_iff_le_not_ge

section Order

variable {α : Type} [Scalar α] {x y z : α}

theorem bne_self_iff : (x != x) = true ↔ ¬ Defined x := by
  rw [bne, Bool.not_eq_true', Defined, Bool.not_eq_true]

theorem bne_self_eq_false (hx : Defined x) : (x != x) = false :=
  Bool.eq_false_iff.2 fun h => bne_self_iff.1 h hx

variable [LawfulOrder α]

theorem LawfulOrder.le_refl (hx : Defined x) : x ≤ x := (LawfulOrder.le_total hx hx).elim id id

theorem LawfulOrder.le_of_lt (h : x < y) : x ≤ y := (LawfulOrder.lt_iff.1 h).1

theorem LawfulOrder.not_le_of_lt (h : x < y) : ¬ y ≤ x := (LawfulOrder.lt_iff.1 h).2

theorem LawfulOrder.lt_of_not_le (hx : Defined x) (hy : Defined y) (h : ¬ y ≤ x) : x < y :=
  LawfulOrder.lt_iff.2 ⟨(LawfulOrder.le_total hx hy).resolve_right h, h⟩

theorem LawfulOrder.lt_or_le (hx : Defined x) (hy : Defined y) : x < y ∨ y ≤ x :=
  (Classical.em (y ≤ x)).symm.imp_left (LawfulOrder.lt_of_not_le hx hy)

end Order

/-! ## Largest entries -/

section Largest

variable {α : Type} [Scalar α] {x y bound : α}

theorem larger_of_not_defined (hx : ¬ Defined x) : larger x y = y := by
  rw [larger, bne_self_iff.2 hx, Bool.or_true, if_pos rfl]

theorem larger_of_defined (hx : Defined x) : larger x y = if x < y then y else x := by
  rw [larger, bne_self_eq_false hx, Bool.or_false]
  simp only [decide_eq_true_eq]

variable [LawfulOrder α]

/-- The larger of two numbers is one of them, and defined if either is. -/
theorem defined_larger : Defined (larger x y) ↔ Defined x ∨ Defined y := by
  by_cases hx : Defined x
  · rw [larger_of_defined hx]
    split
    next lt => exact iff_of_true (LawfulOrder.defined_of_le (LawfulOrder.le_of_lt lt)).2 (.inl hx)
    next => exact iff_of_true hx (.inl hx)
  · rw [larger_of_not_defined hx, or_iff_right hx]

/-- A bound of the larger one of two numbers bounds both of them, as far as they are defined. -/
theorem larger_le_iff : (Defined (larger x y) → larger x y ≤ bound) ↔
    (Defined x → x ≤ bound) ∧ (Defined y → y ≤ bound) := by
  by_cases hx : Defined x
  · rw [larger_of_defined hx, imp_iff_right hx]
    split
    next lt =>
      have hy := (LawfulOrder.defined_of_le (LawfulOrder.le_of_lt lt)).2
      rw [imp_iff_right hy, and_iff_right_of_imp fun le => LawfulOrder.le_trans (LawfulOrder.le_of_lt lt) le]
    next not_lt =>
      rw [imp_iff_right hx, and_iff_left_of_imp]
      exact fun le hy => LawfulOrder.le_trans ((LawfulOrder.lt_or_le hx hy).resolve_left not_lt) le
  · rw [larger_of_not_defined hx, and_iff_right fun h => absurd h hx]

/-- The largest entry is at most a bound when there is a defined entry and all of them are. -/
theorem foldl_larger_le_iff (x : α) (rest : List α) : rest.foldl larger x ≤ bound ↔
    (Defined x ∨ ∃ y ∈ rest, Defined y) ∧ (Defined x → x ≤ bound) ∧
      ∀ y ∈ rest, Defined y → y ≤ bound := by
  induction rest generalizing x with
  | nil =>
    simp only [List.foldl_nil, List.not_mem_nil, false_and, exists_false, or_false, false_imp_iff,
      implies_true, and_true]
    exact ⟨fun le => ⟨(LawfulOrder.defined_of_le le).1, fun _ => le⟩, fun ⟨hx, le⟩ => le hx⟩
  | cons y rest ih =>
    rw [List.foldl_cons, ih, larger_le_iff, defined_larger, or_assoc, and_assoc]
    simp only [List.mem_cons, exists_eq_or_imp, forall_eq_or_imp]

theorem largest_all_le_iff {values : List α} : (largest values).all (· ≤ bound) = true ↔
    values = [] ∨ (∃ x ∈ values, Defined x) ∧ ∀ x ∈ values, Defined x → x ≤ bound := by
  cases values with
  | nil => simp [largest]
  | cons x rest =>
    rw [largest, Option.all_some, decide_eq_true_eq, foldl_larger_le_iff,
      or_iff_right (List.cons_ne_nil x rest)]
    simp only [List.mem_cons, exists_eq_or_imp, forall_eq_or_imp]

end Largest

theorem larger_zero {x : Rat} (nonneg : 0 ≤ x) : larger x 0 = x := by
  rw [larger_of_defined (defined_rat x)]
  exact if_neg nonneg.not_gt

/-! ## The first largest entry -/

section First

variable {α : Type} [Scalar α]

/-- The best entry is one of the list, unless it was the best before. -/
theorem lt_of_bestFrom {best : Option (Nat × α)} {index : Nat} {values : List α}
    (earlier : ∀ b ∈ best, b.1 < index + values.length) :
    ∀ b ∈ bestFrom best index values, b.1 < index + values.length := by
  induction values generalizing best index with
  | nil => exact earlier
  | cons x rest ih =>
    rw [List.length_cons, ← Nat.add_assoc, Nat.add_right_comm] at earlier ⊢
    refine ih fun b hb => ?_
    have here : index < index + 1 + rest.length := by omega
    unfold betterOf at hb
    split at hb
    · exact earlier b hb
    · cases best with
      | none =>
        cases hb
        exact here
      | some held =>
        dsimp only at hb
        split at hb
        · exact earlier b hb
        · cases hb
          exact here

/-- There is an entry at the index of the first largest one; an empty list aside, also if no entry is
defined. -/
theorem argmaxFirst_lt {values : List α} (h : 0 < values.length) :
    (argmaxFirst values).getD 0 < values.length := by
  rcases found : bestFrom none 0 values with _ | b
  · rw [argmaxFirst, found]
    exact h
  · have lt := lt_of_bestFrom (fun _ hb => by cases hb) b found
    rw [argmaxFirst, found]
    rwa [Nat.zero_add] at lt

/-- The best entry so far stays the best one while nothing greater comes. -/
theorem bestFrom_of_le {best : Nat × α} {index : Nat} {values : List α}
    (le : ∀ y ∈ values, y ≤ best.2) : bestFrom (some best) index values = some best := by
  induction values generalizing index with
  | nil => rfl
  | cons y rest ih =>
    rw [List.forall_mem_cons] at le
    have kept : betterOf (some best) index y = some best := by
      simp [betterOf, le.1]
    rw [bestFrom, kept]
    exact ih le.2

/-- A defined entry is the best one so far unless it is at most the best one before. -/
theorem betterOf_eq (best : Option (Nat × α)) (index : Nat) {x : α} (hx : Defined x) :
    betterOf best index x = if ∃ b ∈ best, x ≤ b.2 then best else some (index, x) := by
  unfold betterOf
  rw [bne_self_eq_false hx]
  cases best with
  | none => simp
  | some b => simp

variable [LawfulOrder α]

theorem bestFrom_eq {best : Option (Nat × α)} {index i : Nat} {values : List α} {x : α}
    (there : values[i]? = some x) (le : ∀ y ∈ values, y ≤ x)
    (earlier : ∀ j < i, ∀ y ∈ values[j]?, y < x) (before : ∀ b ∈ best, b.2 < x) :
    bestFrom best index values = some (index + i, x) := by
  induction values generalizing best index i with
  | nil => cases there
  | cons y rest ih =>
    rw [List.forall_mem_cons] at le
    rw [bestFrom, betterOf_eq _ _ (LawfulOrder.defined_of_le le.1).1]
    cases i with
    | zero =>
      cases there
      have better : ¬ ∃ b ∈ best, x ≤ b.2 := fun ⟨b, hb, worse⟩ =>
        LawfulOrder.not_le_of_lt (before b hb) worse
      rw [if_neg better]
      exact bestFrom_of_le le.2
    | succ i =>
      rw [ih there le.2 (fun j hj => earlier (j + 1) (Nat.succ_lt_succ hj)), Nat.add_right_comm,
        Nat.add_assoc]
      intro b hb
      split at hb
      · exact before b hb
      · cases hb
        exact earlier 0 (Nat.zero_lt_succ i) y rfl

/-- The first of the largest entries is the one that is chosen. -/
theorem argmaxFirst_eq {i : Nat} {values : List α} {x : α} (there : values[i]? = some x)
    (le : ∀ y ∈ values, y ≤ x) (earlier : ∀ j < i, ∀ y ∈ values[j]?, y < x) :
    argmaxFirst values = some i := by
  have chosen : bestFrom none 0 values = some (0 + i, x) :=
    bestFrom_eq there le earlier fun _ hb => nomatch hb
  rw [argmaxFirst, chosen, Option.map_some, Nat.zero_add]

/-- If all entries are defined, one is the first of the largest ones. -/
theorem exists_first_largest {values : List α} (some_value : values ≠ [])
    (defined : ∀ y ∈ values, Defined y) :
    ∃ (i : Nat) (x : α), values[i]? = some x ∧ (∀ y ∈ values, y ≤ x) ∧
      ∀ j < i, ∀ y ∈ values[j]?, y < x := by
  induction values with
  | nil => exact absurd rfl some_value
  | cons x rest ih =>
    obtain ⟨hx, defined⟩ := List.forall_mem_cons.1 defined
    by_cases last : rest = []
    · subst last
      refine ⟨0, x, rfl, fun y hy => ?_, fun j hj => absurd hj (Nat.not_lt_zero j)⟩
      rw [List.mem_singleton.1 hy]
      exact LawfulOrder.le_refl hx
    · obtain ⟨i, z, there, le, earlier⟩ := ih last defined
      rcases LawfulOrder.lt_or_le hx (defined z (List.mem_of_getElem? there)) with better | worse
      · refine ⟨i + 1, z, there, List.forall_mem_cons.2 ⟨LawfulOrder.le_of_lt better, le⟩,
          fun j hj y hy => ?_⟩
        cases j with
        | zero => exact Option.some.inj hy ▸ better
        | succ j => exact earlier j (Nat.lt_of_succ_lt_succ hj) y hy
      · refine ⟨0, x, rfl, List.forall_mem_cons.2 ⟨LawfulOrder.le_refl hx, fun y hy => ?_⟩,
          fun j hj => absurd hj (Nat.not_lt_zero j)⟩
        exact LawfulOrder.le_trans (le y hy) worse

end First

end Counsel.Scalar
