/-
Laws that rational numbers and machine numbers share, so that what is proved from them holds of both: machine
numbers compare lawfully, undefined ones among them (`Scalar.LawfulOrder`), a draw from the unit interval is
lawful (`LawfulChances`), and what is computed is the exact result, rounded (`Scalar.LawfulRounding`). At the
rational numbers nothing is rounded.
-/
import Counsel.Proofs.Experiment.Environment
import Counsel.Proofs.Machine.Fractions
import Counsel.Proofs.Weights

namespace Counsel

/-! ## Order -/

namespace Machine

variable {x y : Float} {a b : ℚ}

theorem beq_iff_compare : (x == y) = true ↔ x.toModel.unpack.compare y.toModel.unpack = some .eq := by
  show (x.toModel.unpack.compare y.toModel.unpack == some .eq) = true ↔ _
  exact beq_iff_eq

theorem Stands.beq_iff (hx : Stands x a) (hy : Stands y b) : (x == y) = true ↔ a = b := by
  rw [beq_iff_compare, Valued.compare_eq hx hy, Option.some_inj, cmp_ofRat, cmp_eq_eq_iff]

/-- A machine number is defined if it has a value. -/
theorem defined_iff : Scalar.Defined x ↔ ∃ v, Valued x v := by
  rw [Scalar.Defined, beq_iff_compare]
  constructor
  · exact fun same => (valued_of_compare same).1
  · rintro ⟨v, hx⟩
    rw [hx.compare_eq hx, cmp_self_eq_eq]

end Machine

open Machine in
instance : Scalar.LawfulOrder Float where
  defined_of_le h := (valued_of_le h).imp defined_iff.2 defined_iff.2
  le_total {x y} hx hy := by
    obtain ⟨v, hx⟩ := defined_iff.1 hx
    obtain ⟨w, hy⟩ := defined_iff.1 hy
    rw [hx.le_iff hy, hy.le_iff hx]
    exact le_total v w
  le_trans := Machine.le_trans
  lt_iff {x y} := by
    refine ⟨fun lt => ⟨Machine.le_of_lt lt, Machine.not_le_of_lt lt⟩, fun ⟨below, not_above⟩ => ?_⟩
    obtain ⟨⟨v, hx⟩, w, hy⟩ := valued_of_le below
    rw [hy.le_iff hx, not_le] at not_above
    exact (hx.lt_iff hy).2 not_above

/-! ## Chances -/

/-- Numbers that can be chances. A draw from the unit interval is below one and not below zero, and a part of
no chance is no chance. -/
class LawfulChances (α : Type) [Scalar α] : Prop where
  fraction_lt {γ : Type} [RandomSource γ] (source : γ) {r : α} (certain : 1 ≤ r) :
    (RandomSource.fraction source).1 < r
  not_fraction_lt {γ : Type} [RandomSource γ] (source : γ) {r : α} (none : r ≤ 0) :
    ¬ (RandomSource.fraction source).1 < r
  mul_none {r f : α} (least : 0 ≤ r) (none : r ≤ 0) (pos : 0 < f) (part : f ≤ 1) : 0 ≤ r * f ∧ r * f ≤ 0

instance : LawfulChances Rat where
  fraction_lt source _ certain := (RandomSource.fraction_lt_one source).trans_le certain
  not_fraction_lt source _ none := (none.trans (RandomSource.fraction_nonneg source)).not_gt
  mul_none least none _ _ := by
    rw [le_antisymm none least, Rat.zero_mul]
    exact ⟨le_rfl, le_rfl⟩

namespace Machine

variable {γ : Type} [RandomSource γ]

theorem stands_draw (source : γ) : Stands (RandomSource.fraction source : Float × γ).1
    ((RandomSource.unit source).1 / 2 ^ 53) := stands_fraction (RandomSource.unit_lt source)

theorem draw_lt_one (source : γ) : (RandomSource.fraction source : Float × γ).1 < 1 := by
  refine ((stands_draw source).lt_iff stands_one).2 ((div_lt_one (by norm_num)).2 ?_)
  exact_mod_cast RandomSource.unit_lt source

theorem draw_nonneg (source : γ) : 0 ≤ (RandomSource.fraction source : Float × γ).1 :=
  (stands_zero.le_iff (stands_draw source)).2 (by positivity)

end Machine

/-- Draws lose nothing as machine numbers. -/
instance : LawfulChances Float where
  fraction_lt source _ certain := Machine.lt_of_lt_of_le (Machine.draw_lt_one source) certain
  not_fraction_lt source _ none below :=
    Machine.not_le_of_lt (Machine.lt_of_lt_of_le below none) (Machine.draw_nonneg source)
  mul_none {r f} least none pos part := by
    obtain ⟨q, of_r, low, high⟩ := Machine.stands_zero.between Machine.stands_zero least none
    obtain ⟨p, of_f, -, -⟩ := Machine.stands_zero.between Machine.stands_one (Machine.le_of_lt pos) part
    -- a number that is neither above nor below zero may be a negative zero, but stands for zero
    obtain rfl : q = 0 := le_antisymm high low
    have product := of_r.mul of_f (by rw [zero_mul, abs_zero]; positivity)
    rw [zero_mul] at product
    have zero : Machine.Stands (r * f) 0 := .of_rounds product Machine.representable_zero
    exact ⟨(Machine.stands_zero.le_iff zero).2 le_rfl, (zero.le_iff Machine.stands_zero).2 le_rfl⟩

/-! ## Rounding -/

namespace Scalar

/-- Among the numbers that can be said, none lies strictly between `q` and `c`. -/
def Nearest {α : Type} (stands : α → ℚ → Prop) (q c : ℚ) : Prop :=
  ∀ x r, stands x r → (r ≤ q → r ≤ c) ∧ (q ≤ r → c ≤ r)

/-- Numbers that stand for rational ones. They compare as these do, and a result that is at most two stands
for the exact one, rounded. -/
class LawfulRounding (α : Type) [Scalar α] extends LawfulOrder α where
  Stands : α → ℚ → Prop
  zero : Stands 0 0
  one : Stands 1 1
  half : Stands 0.5 (1 / 2)
  finite {x : α} {a : ℚ} (hx : Stands x a) : isFinite x = true
  le_iff {x y : α} {a b : ℚ} (hx : Stands x a) (hy : Stands y b) : x ≤ y ↔ a ≤ b
  beq_iff {x y : α} {a b : ℚ} (hx : Stands x a) (hy : Stands y b) : (x == y) = true ↔ a = b
  between {x y z : α} {a b : ℚ} (hx : Stands x a) (hz : Stands z b) (low : x ≤ y) (high : y ≤ z) :
    ∃ q, Stands y q
  count {n : ℕ} (few : n < MixedRadix.indexLimit) : ∃ c, Stands (ofNat n) c ∧ Nearest Stands n c
  add {x y : α} {a b : ℚ} (hx : Stands x a) (hy : Stands y b) (small : |a + b| ≤ 2) :
    ∃ c, Stands (x + y) c ∧ Nearest Stands (a + b) c
  sub {x y : α} {a b : ℚ} (hx : Stands x a) (hy : Stands y b) (small : |a - b| ≤ 2) :
    ∃ c, Stands (x - y) c ∧ Nearest Stands (a - b) c
  mul {x y : α} {a b : ℚ} (hx : Stands x a) (hy : Stands y b) (small : |a * b| ≤ 2) :
    ∃ c, Stands (x * y) c ∧ Nearest Stands (a * b) c
  div {x y : α} {a b : ℚ} (hx : Stands x a) (hy : Stands y b) (nonzero : b ≠ 0) (small : |a / b| ≤ 2) :
    ∃ c, Stands (x / y) c ∧ Nearest Stands (a / b) c

theorem Nearest.refl {α : Type} (stands : α → ℚ → Prop) (q : ℚ) : Nearest stands q q :=
  fun _ _ _ => ⟨id, id⟩

/-- What can be said is not rounded. -/
theorem Nearest.eq {α : Type} {stands : α → ℚ → Prop} {q c : ℚ} (h : Nearest stands q c) {x : α}
    (hx : stands x q) : c = q :=
  le_antisymm ((h x q hx).2 le_rfl) ((h x q hx).1 le_rfl)

end Scalar

/-- Nothing is rounded. -/
instance : Scalar.LawfulRounding Rat where
  Stands x q := x = q
  zero := rfl
  one := rfl
  half := by norm_num
  finite _ := rfl
  le_iff hx hy := by rw [hx, hy]
  beq_iff hx hy := by rw [hx, hy, beq_iff_eq]
  between _ _ _ _ := ⟨_, rfl⟩
  count _ := ⟨_, rfl, .refl _ _⟩
  add hx hy _ := ⟨_, rfl, by rw [hx, hy]; exact .refl _ _⟩
  sub hx hy _ := ⟨_, rfl, by rw [hx, hy]; exact .refl _ _⟩
  mul hx hy _ := ⟨_, rfl, by rw [hx, hy]; exact .refl _ _⟩
  div hx hy _ _ := ⟨_, rfl, by rw [hx, hy]; exact .refl _ _⟩


namespace Machine

variable {x : Float} {q c : ℚ}

theorem Stands.isFinite (hx : Stands x q) : x.isFinite = true := by
  show x.toModel.unpack.isFinite = true
  rcases zero_or_finite hx with ⟨s, zero, -⟩ | ⟨s, m, e, pos, finite, -⟩
  · rw [zero]
    rfl
  · rw [finite]
    rfl

theorem Stands.representable (hx : Stands x q) : Representable q := by
  have canonical := canonical_toModel x
  rcases zero_or_finite hx with ⟨s, -, rfl⟩ | ⟨s, m, e, pos, finite, rfl⟩
  · exact representable_zero
  · rw [finite] at canonical
    refine ⟨s.apply m, e, ?_, canonical.2.1, rfl⟩
    have few : (m : ℤ) ≤ 2 ^ 53 := by exact_mod_cast canonical.1.le
    cases s with
    | positive => rwa [Float.Model.UnpackedFloat.Sign.apply, abs_of_nonneg (Int.natCast_nonneg m)]
    | negative =>
      rwa [Float.Model.UnpackedFloat.Sign.apply, abs_neg, abs_of_nonneg (Int.natCast_nonneg m)]

theorem Rounds.nearest (h : Rounds q c) : Scalar.Nearest Stands q c := fun _ r hr => h r hr.representable

theorem exists_nearest (h : ∃ c, Stands x c ∧ Rounds q c) : ∃ c, Stands x c ∧ Scalar.Nearest Stands q c :=
  h.imp fun _ h => h.imp_right Rounds.nearest

end Machine

open Machine in
instance : Scalar.LawfulRounding Float where
  Stands := Stands
  zero := stands_zero
  one := stands_one
  half := stands_half
  finite := Stands.isFinite
  le_iff := Stands.le_iff
  beq_iff := Stands.beq_iff
  between hx hz low high := (hx.between hz low high).imp fun _ h => h.1
  count few := exists_nearest (exists_stands_ofNat few)
  add hx hy small := exists_nearest (hx.add hy (abs_le_largest small))
  sub hx hy small := exists_nearest (hx.sub hy (abs_le_largest small))
  mul hx hy small := exists_nearest (hx.mul hy (abs_le_largest small))
  div hx hy nonzero small := exists_nearest (hx.div hy nonzero (abs_le_largest small))

end Counsel
