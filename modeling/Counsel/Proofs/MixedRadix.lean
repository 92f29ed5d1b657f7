/-
More about mixed-radix numbers. The size is the product of the bases, positions in range are in step with
the bases (`inRange_iff`), and an index grows with the positions (`encode_le`) and is made up of those of
the parts of its positions (`encode_append`). It is the sum of the positions, each times its stride
(`encode_eq_sum`).
-/
import Mathlib
import Counsel.MixedRadix

namespace Counsel.MixedRadix

theorem size_eq_prod (bases : List Nat) : size bases = bases.prod := by
  induction bases with
  | nil => rfl
  | cons b rest ih => rw [size, ih, List.prod_cons]

theorem pos_of_lt_size {bases : List Nat} {index : Nat} (h : index < size bases) :
    ∀ b ∈ bases, 0 < b := by
  rw [size_eq_prod] at h
  exact fun b hb => Nat.pos_of_ne_zero fun zero =>
    absurd (List.prod_eq_zero (zero ▸ hb)) (by omega)

theorem inRange_iff {bases digits : List Nat} :
    InRange bases digits ↔ List.Forall₂ (fun base digit => digit < base) bases digits := by
  induction bases generalizing digits with
  | nil => cases digits <;> simp [InRange]
  | cons base rest ih =>
    cases digits with
    | nil => simp [InRange]
    | cons digit digits =>
      rw [List.forall₂_cons]
      exact and_congr_right fun _ => ih

/-- A position that is nowhere greater has no greater index. -/
theorem encode_le {bases xs ys : List Nat} (h : List.Forall₂ (· ≤ ·) xs ys) :
    encode bases xs ≤ encode bases ys := by
  induction bases generalizing xs ys with
  | nil => simp [encode]
  | cons base rest ih =>
    cases h with
    | nil => exact Nat.le_refl _
    | cons head tail =>
      exact Nat.add_le_add (Nat.mul_le_mul_right _ head) (ih tail)

theorem encode_append {as bs xs ys : List Nat} (h : as.length = xs.length) :
    encode (as ++ bs) (xs ++ ys) = encode as xs * size bs + encode bs ys := by
  induction as generalizing xs with
  | nil =>
    cases xs with
    | nil => simp [encode]
    | cons x xs => cases h
  | cons a as ih =>
    cases xs with
    | nil => cases h
    | cons x xs =>
      rw [List.cons_append, List.cons_append, encode, encode, ih (Nat.succ.inj h), size_append,
        Nat.add_mul, Nat.add_assoc, Nat.mul_assoc]

/-! ## Strides -/

@[simp] theorem length_strides (bases : List Nat) : (strides bases).length = bases.length := by
  induction bases with
  | nil => rfl
  | cons b rest ih => rw [strides, List.length_cons, ih, List.length_cons]

/-- One more place at the end spreads the others out by its base, and its own positions are neighbours. -/
theorem strides_concat (bases : List Nat) (b : Nat) :
    strides (bases ++ [b]) = (strides bases).map (· * b) ++ [1] := by
  induction bases with
  | nil => rfl
  | cons a rest ih =>
    rw [List.cons_append, strides, strides, ih, size_append, size, size, Nat.mul_one]
    rfl

/-- The index is the sum of the positions, each times its stride. -/
theorem encode_eq_sum (bases digits : List Nat) :
    encode bases digits = (List.zipWith (· * ·) digits (strides bases)).sum := by
  induction bases generalizing digits with
  | nil => simp [encode, strides]
  | cons b rest ih =>
    cases digits with
    | nil => simp [encode]
    | cons digit digits => rw [encode, strides, List.zipWith_cons_cons, List.sum_cons, ih]

theorem sum_zipWith_scaled (digits strides : List Nat) (k : Nat) :
    (List.zipWith (· * ·) digits (strides.map (· * k))).sum =
      (List.zipWith (· * ·) digits strides).sum * k := by
  induction digits generalizing strides with
  | nil => simp
  | cons digit digits ih =>
    cases strides with
    | nil => simp
    | cons stride strides =>
      rw [List.map_cons, List.zipWith_cons_cons, List.zipWith_cons_cons, List.sum_cons, List.sum_cons,
        ih, Nat.add_mul, Nat.mul_assoc]

end Counsel.MixedRadix
