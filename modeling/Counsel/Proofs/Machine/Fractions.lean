/-
Quotients and counts of machine numbers. A quotient is taken with enough digits, and what is left over is told
to the rounding, so that it is the exact one, rounded (`Stands.div`). A count of up to `2 ^ 53` is a machine
number (`stands_ofNat`), and a longer one is rounded (`exists_stands_ofNat`). So a draw from the unit interval
is the fraction that was drawn (`stands_fraction`), and lies in the interval also as a machine number.
-/
import Counsel.Proofs.Machine.Arithmetic
import Counsel.Random.Source

namespace Counsel.Machine

open Float.Model Float.Model.UnpackedFloat

/-! ## Quotients -/

/-- The remainder says what follows the digits of a quotient. -/
theorem tells_quotient (m : ℕ) {m' : ℕ} (pos' : 0 < m') (t : ℤ) :
    Tells (m / m') t (accuracyOfFraction (m % m') m') (m / m' * 2 ^ t) := by
  have positive : (0 : ℚ) < m' := by exact_mod_cast pos'
  have whole : (m : ℚ) = m' * (m / m' : ℕ) + (m % m' : ℕ) := by exact_mod_cast (Nat.div_add_mod m m').symm
  unfold accuracyOfFraction
  split
  next none =>
    rw [none, Nat.cast_zero, add_zero] at whole
    rw [Tells, whole, mul_div_cancel_left₀ _ positive.ne']
  next some_left =>
    have more : (0 : ℚ) < (m % m' : ℕ) := by exact_mod_cast Nat.pos_of_ne_zero some_left
    have less : ((m % m' : ℕ) : ℚ) < m' := by exact_mod_cast Nat.mod_lt m pos'
    constructor
    · gcongr
      rw [lt_div_iff₀ positive]
      linarith
    · gcongr
      rw [div_lt_iff₀ positive]
      linarith

/-- Enough digits are added to a mantissa for the quotient to have all that are needed. -/
theorem quotient_fine {m m' n : ℕ} (pos : 0 < m) (pos' : 0 < m') {e e' t : ℤ} (shifted : t + n = e - e')
    (low : t ≤ Format.binary64.targetExponent (totalExponent m e - totalExponent m' e')) :
    t ≤ Format.binary64.targetExponent (totalExponent (m * 2 ^ n / m') t) := by
  rw [targetExponent_eq]
  have order : Format.binary64.targetExponent (totalExponent m e - totalExponent m' e') =
      max (m.log2 + e - (m'.log2 + e') - 53) (-1074) := by
    have digits : (Format.binary64.mantissaBits : ℤ) = 53 := rfl
    have least : Format.binary64.minExponent = -1074 := rfl
    rw [Format.targetExponent, totalExponent, totalExponent, digits, least]
    congr 1
    omega
  rw [order] at low
  have digits := log2_mul_two_pow pos n
  have some_digit : m * 2 ^ n ≠ 0 := (Nat.mul_pos pos (Nat.two_pow_pos n)).ne'
  rcases Nat.lt_or_ge (m * 2 ^ n) m' with small | large
  · -- the quotient has no digits, so the exponent is the least one
    have := (Nat.le_log2 pos'.ne').2 ((Nat.log2_self_le some_digit).trans small.le)
    omega
  · have : m.log2 + n ≤ (m * 2 ^ n / m').log2 + m'.log2 + 1 := by
      by_contra many
      have quotient : m * 2 ^ n / m' < 2 ^ ((m * 2 ^ n / m').log2 + 1) := Nat.lt_log2_self
      have divisor : m' < 2 ^ (m'.log2 + 1) := Nat.lt_log2_self
      have product : m * 2 ^ n < 2 ^ (m * 2 ^ n).log2 := by
        calc m * 2 ^ n < m' * (m * 2 ^ n / m' + 1) := Nat.lt_mul_div_succ _ pos'
          _ ≤ 2 ^ (m'.log2 + 1) * 2 ^ ((m * 2 ^ n / m').log2 + 1) := Nat.mul_le_mul divisor.le quotient
          _ ≤ 2 ^ (m * 2 ^ n).log2 := by
            rw [← Nat.pow_add]
            exact Nat.pow_le_pow_right Nat.two_pos (by omega)
      exact product.not_ge (Nat.log2_self_le some_digit)
    omega

/-- A quotient is taken after digits were added to the mantissa. -/
theorem exists_divCore (m m' : ℕ) (e e' : ℤ) : ∃ (n : ℕ) (t : ℤ),
    divCore Format.binary64 m e m' e' =
      (m * 2 ^ n / m', t, accuracyOfFraction (m * 2 ^ n % m') m') ∧ t + n = e - e' ∧
      t ≤ Format.binary64.targetExponent (totalExponent m e - totalExponent m' e') := by
  let target := Format.binary64.targetExponent (totalExponent m e - totalExponent m' e')
  refine ⟨(e - e' - min (e - e') target).toNat, min (e - e') target, ?_, by omega, min_le_right _ _⟩
  rw [← Nat.shiftLeft_eq]
  rfl

theorem apply_div (s s' : Sign) (m m' : ℕ) :
    (s.apply m / s'.apply m' : ℚ) = (s / s').apply 1 * (m / m') := by
  have quotient : (s / s').apply 1 = s.apply 1 * s'.apply 1 := by
    cases s <;> cases s' <;> rfl
  have inverse : ((s'.apply 1 : ℤ) : ℚ)⁻¹ = s'.apply 1 := by
    cases s' <;> norm_num [Sign.apply]
  rw [apply_eq s, apply_eq s', quotient]
  push_cast
  rw [mul_div_mul_comm, div_eq_mul_inv _ ((s'.apply 1 : ℤ) : ℚ), inverse]

theorem abs_apply_one (s : Sign) : |(s.apply 1 : ℚ)| = 1 := by
  cases s <;> simp [Sign.apply]

theorem approximates_div {u v : UnpackedFloat} {a b : ℚ} (ha : value? u = some (ofRat a))
    (hb : value? v = some (ofRat b)) (nonzero : b ≠ 0) (bound : |a / b| ≤ 2 ^ (1023 : ℤ)) :
    Approximates (UnpackedFloat.div Format.binary64 u v) (a / b) := by
  rcases zero_or_finite hb with ⟨s', rfl, rfl⟩ | ⟨s', m', e', pos', rfl, rfl⟩
  · exact absurd rfl nonzero
  rcases zero_or_finite ha with ⟨s, rfl, rfl⟩ | ⟨s, m, e, pos, rfl, rfl⟩
  · rw [zero_div]
    exact ⟨trivial, 0, rfl, .refl 0⟩
  · obtain ⟨n, t, divided, shifted, low⟩ := exists_divCore m m' e e'
    have quotient : (s.apply m * 2 ^ e / (s'.apply m' * 2 ^ e') : ℚ) =
        (s / s').apply 1 * ((m * 2 ^ n : ℕ) / m' * 2 ^ t) := by
      rw [mul_div_mul_comm, apply_div, ← zpow_sub₀ two_ne_zero, ← shifted, zpow_add₀ two_ne_zero,
        zpow_natCast]
      push_cast
      ring
    rw [quotient, abs_mul, abs_apply_one, one_mul] at bound
    unfold UnpackedFloat.div
    simp only [divided]
    rw [quotient]
    exact approximates_roundWithAccuracy (tells_quotient _ pos' t) (quotient_fine pos pos' shifted low)
      ((le_abs_self _).trans bound) _

theorem Stands.div {x y : Float} {a b : ℚ} (hx : Stands x a) (hy : Stands y b) (nonzero : b ≠ 0)
    (bound : |a / b| ≤ 2 ^ (1023 : ℤ)) : ∃ c, Stands (x / y) c ∧ Rounds (a / b) c :=
  stands_of_approximates (approximates_div hx hy nonzero bound)

/-! ## Counts -/

theorem representable_natCast {n : ℕ} (few : n ≤ 2 ^ 53) : Representable n :=
  ⟨n, 0, by exact_mod_cast few, by decide, by simp⟩

theorem natCast_le {n : ℕ} (few : n ≤ 2 ^ 65) : (n : ℚ) ≤ 2 ^ (1023 : ℤ) :=
  calc (n : ℚ) ≤ 2 ^ (65 : ℤ) := by exact_mod_cast few
    _ ≤ 2 ^ (1023 : ℤ) := zpow_le_zpow_right₀ one_le_two (by decide)

theorem abs_natCast_le {n : ℕ} (few : n ≤ 2 ^ 65) : |(n : ℚ)| ≤ 2 ^ (1023 : ℤ) :=
  (Nat.abs_cast n).trans_le (natCast_le few)

theorem stands_toFloat {n : ℕ} (few : n < 2 ^ 53) : Stands n.toUInt64.toFloat n := by
  have same : n.toUInt64.toNat = n := Nat.mod_eq_of_lt (by omega)
  have exact : (((n.toUInt64.toNat : ℤ) : ℚ) * 2 ^ (0 : ℤ)) = n := by
    rw [same, zpow_zero, mul_one, Int.cast_natCast]
  have rounded := stands_of_approximates
    (approximates_normalize (exact.symm ▸ abs_natCast_le (by omega)) .positive)
  rw [exact] at rounded
  exact Stands.of_rounds rounded (representable_natCast few.le)

theorem stands_ofNat {n : ℕ} (few : n ≤ 2 ^ 53) : Stands (Float.ofNat n) n := by
  rcases few.lt_or_eq with few | rfl
  · have written : Float.ofNat n = n.toUInt64.toFloat * 1.0 := dif_pos ⟨few, by decide⟩
    have product := (stands_toFloat few).mul stands_one (by rw [mul_one]; exact abs_natCast_le (by omega))
    rw [mul_one] at product
    rw [written]
    exact Stands.of_rounds product (representable_natCast few.le)
  · have parts : (Float.ofNat (2 ^ 53)).toModel.unpack = .finite .positive (2 ^ 52) 1 (by decide) := rfl
    rw [Stands, parts, value?]
    norm_num [Sign.apply]

/-- A count that is too long for a machine number is rounded. -/
theorem approximates_ofScientific {n : ℕ} (pos : 0 < n) (bound : (n : ℚ) ≤ 2 ^ (1023 : ℤ)) :
    Approximates (UnpackedFloat.ofScientific Format.binary64 n 0) n := by
  have shifted : ((n <<< 53 * 10 ^ 0 : ℕ) * 2 ^ (-53 + 0 : ℤ) : ℚ) = n := by
    rw [Nat.shiftLeft_eq]
    push_cast
    rw [mul_assoc, mul_assoc]
    norm_num
  have fine : (-53 + 0 : ℤ) ≤
      Format.binary64.targetExponent (totalExponent (n <<< 53 * 10 ^ 0) (-53 + 0)) := by
    rw [targetExponent_eq, Nat.pow_zero, Nat.mul_one, Nat.shiftLeft_eq, log2_mul_two_pow pos]
    omega
  have rounded := approximates_roundExact fine (shifted.le.trans bound) .positive
  rw [Sign.apply, Int.cast_natCast, shifted] at rounded
  have exponents : Format.binary64.exponentBits = 11 := rfl
  unfold UnpackedFloat.ofScientific
  rw [exponents, dif_neg pos.ne', if_neg (by decide), if_neg (by omega), if_pos le_rfl]
  exact rounded

/-- A count is rounded if it does not have too many digits. -/
theorem exists_stands_ofNat {n : ℕ} (few : n < 2 ^ 64) : ∃ c, Stands (Float.ofNat n) c ∧ Rounds n c := by
  rcases Nat.lt_or_ge n (2 ^ 53) with short | long
  · exact ⟨n, stands_ofNat short.le, .refl _⟩
  · have written : Float.ofNat n = ⟨.ofScientific n 0⟩ := dif_neg fun h => h.1.not_ge long
    rw [written]
    exact stands_of_approximates (approximates_ofScientific (by omega) (natCast_le (by omega)))

/-- Counts are added without loss if their sum has not too many digits. -/
theorem stands_add_ofNat {m n : ℕ} (few : m + n ≤ 2 ^ 53) :
    Stands (Float.ofNat m + Float.ofNat n) (m + n : ℕ) := by
  have sum := (stands_ofNat (n := m) (by omega)).add (stands_ofNat (n := n) (by omega))
    (by exact_mod_cast abs_natCast_le (few.trans (by decide)))
  rw [← Nat.cast_add] at sum
  exact Stands.of_rounds sum (representable_natCast few)

theorem Rounds.of_count {n : ℕ} {c : ℚ} (rounds : Rounds n c) (few : n < 2 ^ 64) :
    0 ≤ c ∧ c ≤ 2 ^ (64 : ℤ) ∧ (0 < n → 1 ≤ c) :=
  ⟨(rounds 0 representable_zero).1 n.cast_nonneg,
    (rounds _ (representable_two_zpow (by decide))).2 (by exact_mod_cast few.le),
    fun pos => (rounds 1 representable_one).1 (by exact_mod_cast pos)⟩

/-- The sum of two counts is positive if one of them is. -/
theorem exists_stands_add_ofNat {m n : ℕ} (pos : 0 < m + n) (few : m < 2 ^ 64) (few' : n < 2 ^ 64) :
    ∃ c, Stands (Float.ofNat m + Float.ofNat n) c ∧ 0 < c := by
  obtain ⟨a, ha, rounds⟩ := exists_stands_ofNat few
  obtain ⟨b, hb, rounds'⟩ := exists_stands_ofNat few'
  obtain ⟨nonneg, large, positive⟩ := rounds.of_count few
  obtain ⟨nonneg', large', positive'⟩ := rounds'.of_count few'
  have one_le : 1 ≤ a + b := by
    rcases Nat.eq_zero_or_pos m with rfl | some
    · linarith [positive' (by omega)]
    · linarith [positive some]
  have bound : |a + b| ≤ 2 ^ (1023 : ℤ) := by
    rw [abs_of_nonneg (by linarith)]
    calc a + b ≤ 2 ^ (64 : ℤ) + 2 ^ (64 : ℤ) := add_le_add large large'
      _ = 2 ^ (65 : ℤ) := by norm_num
      _ ≤ 2 ^ (1023 : ℤ) := zpow_le_zpow_right₀ one_le_two (by decide)
  obtain ⟨c, sum, rounded⟩ := ha.add hb bound
  exact ⟨c, sum, zero_lt_one.trans_le ((rounded 1 representable_one).1 one_le)⟩

/-! ## Fractions -/

/-- A draw from the unit interval is the fraction that was drawn. -/
theorem stands_fraction {k : ℕ} (few : k < unitSteps) :
    Stands (Float.ofNat k / Float.ofNat unitSteps) (k / 2 ^ 53) := by
  have few : k ≤ 2 ^ 53 := few.le
  have steps : Stands (Float.ofNat unitSteps) (2 ^ 53) := by exact_mod_cast stands_ofNat (n := 2 ^ 53) le_rfl
  have bound : |(k / 2 ^ 53 : ℚ)| ≤ 2 ^ (1023 : ℤ) := by
    rw [abs_div]
    exact (div_le_self (abs_nonneg _) (by norm_num)).trans (abs_natCast_le (by omega))
  refine Stands.of_rounds ((stands_ofNat few).div steps (by norm_num) bound) ⟨k, -53, ?_, by decide, ?_⟩
  · exact_mod_cast few
  · rw [Int.cast_natCast, zpow_neg, div_eq_mul_inv]
    norm_num

end Counsel.Machine
