/-
Halving the unit range. On machine numbers nothing is rounded: after `n` halvings the range is a cell
`[k / 2 ^ n, (k + 1) / 2 ^ n]` (`Cell.halve`), its width falls below the limit with the fortieth halving and
not before (`Cell.narrow_iff`), so a bisection is that many halvings whatever its test answers
(`bisect_eq`). Two bisections, where the test of one implies the test of the other, keep to the same ranges
until one goes left and the other right, and what they find lies in that order (`halvings_apart`).
-/
import Counsel.Beta.Quantile
import Counsel.Proofs.Machine.Arithmetic

namespace Counsel.Beta

open Machine

section Halving

variable {α : Type} [Scalar α]

def middle (range : α × α) : α := 0.5 * (range.1 + range.2)

/-- The half of a range that a test of its middle points to. -/
def halve (below : α → Bool) (range : α × α) : α × α :=
  if below (middle range) then (middle range, range.2) else (range.1, middle range)

/-- The range after a number of halvings of the unit range. -/
def halvings (below : α → Bool) (n : ℕ) : α × α := (halve below)^[n] (0, 1)

theorem halvings_succ (below : α → Bool) (n : ℕ) :
    halvings below (n + 1) = halve below (halvings below n) :=
  Function.iterate_succ_apply' _ _ _

theorem bisect_succ (below : α → Bool) (low high : α) (limit : ℕ) :
    bisect below low high (limit + 1) =
      if (halve below (low, high)).2 - (halve below (low, high)).1 < 1e-12 then halve below (low, high)
      else bisect below (halve below (low, high)).1 (halve below (low, high)).2 limit := rfl

end Halving

/-! ## Numbers with few digits -/

variable {i j k n : ℕ} {x y : Float}

theorem representable_dyadic (digits : i ≤ 2 ^ 53) (few : n ≤ 1074) : Representable (i / 2 ^ n) :=
  ⟨i, -n, by rwa [Nat.abs_cast, ← Nat.cast_ofNat, ← Nat.cast_pow, Nat.cast_le], by omega, by
    rw [zpow_neg, zpow_natCast, Int.cast_natCast, div_eq_mul_inv]⟩

theorem abs_dyadic_le (small : i ≤ 2 * 2 ^ n) : |(i / 2 ^ n : ℚ)| ≤ 2 := by
  rw [abs_of_nonneg (by positivity), div_le_iff₀ (by positivity)]
  exact_mod_cast small

theorem stands_add (hx : Stands x (i / 2 ^ n)) (hy : Stands y (j / 2 ^ n)) (few : n ≤ 52)
    (small : i + j ≤ 2 * 2 ^ n) : Stands (x + y) ((i + j : ℕ) / 2 ^ n) := by
  have bound := abs_dyadic_le small
  have width : 2 ^ n ≤ 2 ^ 52 := Nat.pow_le_pow_right Nat.two_pos few
  refine .of_rounds ?_ (representable_dyadic (by omega) (by omega))
  rw [Nat.cast_add, add_div] at bound ⊢
  exact hx.add hy (abs_le_largest bound)

theorem stands_halved (hx : Stands x (i / 2 ^ n)) (few : n ≤ 52) (small : i ≤ 2 * 2 ^ n) :
    Stands (0.5 * x) (i / 2 ^ (n + 1)) := by
  have bound : |(i / 2 ^ (n + 1) : ℚ)| ≤ 2 := abs_dyadic_le (by rw [Nat.pow_succ]; omega)
  have width : 2 ^ n ≤ 2 ^ 52 := Nat.pow_le_pow_right Nat.two_pos few
  refine .of_rounds ?_ (representable_dyadic (by omega) (by omega))
  have half : (i / 2 ^ (n + 1) : ℚ) = 1 / 2 * (i / 2 ^ n) := by
    rw [pow_succ]
    field_simp
  rw [half] at bound ⊢
  exact stands_half.mul hx (abs_le_largest bound)

theorem stands_width (hx : Stands x (i / 2 ^ n)) (hy : Stands y ((i + 1 : ℕ) / 2 ^ n)) (few : n ≤ 1074) :
    Stands (y - x) (1 / 2 ^ n) := by
  have width : ((i + 1 : ℕ) / 2 ^ n - i / 2 ^ n : ℚ) = (1 : ℕ) / 2 ^ n := by
    rw [Nat.cast_add, add_div, add_sub_cancel_left]
  have bound : |((1 : ℕ) / 2 ^ n : ℚ)| ≤ 2 := abs_dyadic_le (by have := Nat.two_pow_pos n; omega)
  rw [← Nat.cast_one]
  refine .of_rounds ?_ (representable_dyadic (by decide) few)
  rw [← width] at bound ⊢
  exact hy.sub hx (abs_le_largest bound)

/-! ## Cells -/

/-- A range between neighbouring multiples of `1 / 2 ^ n` within the unit range. -/
structure Cell (n k : ℕ) (range : Float × Float) : Prop where
  inside : k < 2 ^ n
  low : Stands range.1 (k / 2 ^ n)
  high : Stands range.2 ((k + 1 : ℕ) / 2 ^ n)

variable {range : Float × Float} {below : Float → Bool}

theorem cell_unit : Cell 0 0 ((0, 1) : Float × Float) where
  inside := Nat.one_pos
  low := by
    rw [Nat.cast_zero, zero_div]
    exact stands_zero
  high := by
    rw [zero_add, Nat.cast_one, pow_zero, div_one]
    exact stands_one

/-- The middle of a cell, without rounding. -/
theorem Cell.middle (cell : Cell n k range) (few : n ≤ 52) :
    Stands (middle range) ((2 * k + 1 : ℕ) / 2 ^ (n + 1)) := by
  have inside := cell.inside
  have twice : 2 * k + 1 = k + (k + 1) := by omega
  rw [twice]
  exact stands_halved (stands_add cell.low cell.high few (by omega)) few (by omega)

theorem dyadic_succ (i n : ℕ) : (i / 2 ^ n : ℚ) = (2 * i : ℕ) / 2 ^ (n + 1) := by
  rw [pow_succ, Nat.cast_mul, mul_comm, Nat.cast_ofNat, mul_div_mul_right _ _ two_ne_zero]

/-- Either half of a cell is a cell of the next level. -/
theorem Cell.halve (cell : Cell n k range) (few : n ≤ 52) :
    Cell (n + 1) (2 * k + (below (Beta.middle range)).toNat) (halve below range) := by
  have inside := cell.inside
  have half := cell.middle few
  have width : 2 ^ (n + 1) = 2 * 2 ^ n := by rw [Nat.pow_succ, Nat.mul_comm]
  unfold Beta.halve
  split
  next right =>
    rw [right]
    have high := cell.high
    rw [dyadic_succ] at high
    exact ⟨by rw [width, Bool.toNat_true]; omega, half, high⟩
  next left =>
    rw [Bool.eq_false_iff.2 left]
    have low := cell.low
    rw [dyadic_succ] at low
    exact ⟨by rw [width, Bool.toNat_false]; omega, low, half⟩

/-- The width of a cell falls below the limit at the fortieth level. -/
theorem Cell.narrow_iff (cell : Cell n k range) (few : n ≤ 1074) :
    range.2 - range.1 < 1e-12 ↔ 40 ≤ n := by
  rw [(stands_width cell.low cell.high few).lt_iff stands_tiny]
  constructor
  · intro narrow
    by_contra short
    have wide : (1 / 2 ^ 39 : ℚ) ≤ 1 / 2 ^ n := one_div_pow_le_one_div_pow_of_le one_le_two (by omega)
    exact absurd (wide.trans_lt narrow) (by norm_num)
  · intro many
    have narrow : (1 / 2 ^ n : ℚ) ≤ 1 / 2 ^ 40 := one_div_pow_le_one_div_pow_of_le one_le_two many
    exact narrow.trans_lt (by norm_num)

/-! ## Bisections -/

theorem Cell.bisect_eq (cell : Cell n k range) (few : n < 40) (limit : ℕ) :
    bisect below range.1 range.2 limit = (Beta.halve below)^[min limit (40 - n)] range := by
  induction limit generalizing n k range with
  | zero =>
    rw [Nat.zero_min]
    rfl
  | succ limit ih =>
    have next : Cell (n + 1) _ (Beta.halve below range) := cell.halve (by omega)
    have halvings : min (limit + 1) (40 - n) = min limit (40 - (n + 1)) + 1 := by omega
    rw [bisect_succ, halvings, Function.iterate_succ_apply]
    split
    next narrow =>
      have last := (next.narrow_iff (by omega)).1 narrow
      have none_left : min limit (40 - (n + 1)) = 0 := by omega
      rw [none_left]
      rfl
    next wide =>
      exact ih next (Nat.lt_of_not_le fun many => wide ((next.narrow_iff (by omega)).2 many))

/-- A bisection of the unit range is that many halvings, and never more than forty. -/
theorem bisect_eq (below : Float → Bool) (limit : ℕ) :
    bisect below 0 1 limit = halvings below (min limit 40) :=
  cell_unit.bisect_eq (by decide) limit

theorem exists_cell (below : Float → Bool) {n : ℕ} (few : n ≤ 53) : ∃ k, Cell n k (halvings below n) := by
  induction n with
  | zero => exact ⟨0, cell_unit⟩
  | succ n ih =>
    obtain ⟨k, cell⟩ := ih (by omega)
    rw [halvings_succ]
    exact ⟨_, cell.halve (by omega)⟩

/-- An end of a range is an end of the unit range or was tested. -/
structure Bracketed (below : Float → Bool) (range : Float × Float) : Prop where
  low : range.1 = 0 ∨ below range.1 = true
  high : range.2 = 1 ∨ below range.2 = false

theorem Bracketed.halve (h : Bracketed below range) : Bracketed below (Beta.halve below range) := by
  unfold Beta.halve
  split
  next right => exact ⟨.inr right, h.high⟩
  next left => exact ⟨h.low, .inr (Bool.eq_false_iff.2 left)⟩

theorem bracketed_halvings (below : Float → Bool) (n : ℕ) : Bracketed below (halvings below n) := by
  induction n with
  | zero => exact ⟨.inl rfl, .inl rfl⟩
  | succ n ih =>
    rw [halvings_succ]
    exact ih.halve

/-- Where one test implies another, the ranges of the two bisections are the same, until the first lies
left of the second. -/
theorem halvings_apart {below below' : Float → Bool} (implies : ∀ x, below x = true → below' x = true)
    {n : ℕ} (few : n ≤ 53) :
    halvings below n = halvings below' n ∨
      ∃ k k', Cell n k (halvings below n) ∧ Cell n k' (halvings below' n) ∧ k < k' := by
  induction n with
  | zero => exact .inl rfl
  | succ n ih =>
    rw [halvings_succ, halvings_succ]
    rcases ih (by omega) with same | ⟨k, k', cell, cell', lt⟩
    · rw [← same]
      by_cases agree : below (Beta.middle (halvings below n)) = below' (Beta.middle (halvings below n))
      · left
        rw [halve, halve, agree]
      · -- where the answers part, the first goes left and the second right
        obtain ⟨k, cell⟩ := exists_cell below (by omega : n ≤ 53)
        have left : below (Beta.middle (halvings below n)) = false := by
          by_contra right
          rw [Bool.not_eq_false] at right
          exact agree (right.trans (implies _ right).symm)
        have right : below' (Beta.middle (halvings below n)) = true := by
          rw [left] at agree
          exact Bool.eq_true_of_not_eq_false (Ne.symm agree)
        refine .inr ⟨_, _, cell.halve (by omega), cell.halve (by omega), ?_⟩
        rw [left, right]
        exact Nat.lt_succ_self _
    · refine .inr ⟨_, _, cell.halve (by omega), cell'.halve (by omega), ?_⟩
      have most := Bool.toNat_le (below (Beta.middle (halvings below n)))
      omega

/-- Where one test implies another, its bisection finds no larger point. -/
theorem middle_halvings_le {below below' : Float → Bool} (implies : ∀ x, below x = true → below' x = true)
    {n : ℕ} (few : n ≤ 52) : middle (halvings below n) ≤ middle (halvings below' n) := by
  rcases halvings_apart implies (by omega : n ≤ 53) with same | ⟨k, k', cell, cell', lt⟩
  · obtain ⟨k, cell⟩ := exists_cell below (by omega : n ≤ 53)
    rw [← same]
    exact ((cell.middle few).le_iff (cell.middle few)).2 le_rfl
  · refine ((cell.middle few).le_iff (cell'.middle few)).2 ?_
    gcongr

end Counsel.Beta
