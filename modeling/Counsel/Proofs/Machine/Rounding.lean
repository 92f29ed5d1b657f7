/-
Rounding to binary64. Digits are dropped until 53 of them are left, and the last one that stays goes up by
one or not at all (`mantissa_le_rounded`), and not if only zeros were dropped (`shift_exact`). So no number
that can be represented lies strictly between a number and what it is rounded to (`Rounds`), also if not all
digits of the number are told (`Tells.rounds`). That is all that is used of rounding, as it settles results
that can be represented (`Rounds.eq`) and keeps bounds that can be.
-/
import Counsel.Proofs.Machine.Value

namespace Counsel.Machine

open Float.Model Float.Model.UnpackedFloat

/-! ## Representable numbers -/

/-- A rational number of at most 53 binary digits, none of them too small for binary64. -/
def Representable (q : ℚ) : Prop := ∃ k e : ℤ, |k| ≤ 2 ^ 53 ∧ -1074 ≤ e ∧ q = k * 2 ^ e

/-- No representable number lies strictly between a number and its rounded value. -/
def Rounds (q c : ℚ) : Prop := ∀ r, Representable r → (r ≤ q → r ≤ c) ∧ (q ≤ r → c ≤ r)

theorem representable_two_zpow {e : ℤ} (least : -1074 ≤ e) : Representable (2 ^ e) :=
  ⟨1, e, by decide, least, by rw [Int.cast_one, one_mul]⟩

theorem representable_zero : Representable 0 := ⟨0, 0, by norm_num⟩

theorem representable_one : Representable 1 := ⟨1, 0, by norm_num⟩

theorem Representable.neg {q : ℚ} (h : Representable q) : Representable (-q) := by
  obtain ⟨k, e, few, least, rfl⟩ := h
  exact ⟨-k, e, by rwa [abs_neg], least, by push_cast; ring⟩

theorem Rounds.refl (q : ℚ) : Rounds q q := fun _ _ => ⟨id, id⟩

theorem Rounds.eq {q c : ℚ} (h : Rounds q c) (representable : Representable q) : c = q :=
  le_antisymm ((h q representable).2 le_rfl) ((h q representable).1 le_rfl)

theorem Rounds.neg {q c : ℚ} (h : Rounds q c) : Rounds (-q) (-c) := by
  intro r hr
  obtain ⟨below, above⟩ := h (-r) hr.neg
  exact ⟨fun le => le_neg.1 (above (le_neg.1 le)), fun le => neg_le.1 (below (neg_le.1 le))⟩

/-- A representable number is a multiple of a power of two, or too small to have a digit there. -/
theorem Representable.multiple {q : ℚ} (h : Representable q) {t : ℤ} {f : ℕ}
    (full : t = -1074 ∨ 2 ^ 52 ≤ f) : (∃ k : ℤ, q = k * 2 ^ t) ∨ q ≤ f * 2 ^ t := by
  obtain ⟨k, e, few, least, rfl⟩ := h
  rcases le_or_gt t e with le | lt
  · obtain ⟨n, rfl⟩ := Int.le.dest le
    refine .inl ⟨k * 2 ^ n, ?_⟩
    rw [zpow_add₀ two_ne_zero, zpow_natCast]
    push_cast
    ring
  · right
    have digits : (2 ^ 52 : ℚ) ≤ f := by exact_mod_cast full.resolve_left (by omega)
    have few : (k : ℚ) ≤ 2 ^ 53 := by exact_mod_cast (le_abs_self k).trans few
    calc (k * 2 ^ e : ℚ) ≤ 2 ^ 53 * 2 ^ e := by gcongr
      _ = 2 ^ 52 * 2 ^ (e + 1) := by rw [zpow_add₀ two_ne_zero]; ring
      _ ≤ f * 2 ^ t := by gcongr <;> [norm_num; omega]

/-! ## Dropping digits -/

/-- A mantissa, and how what follows it compares with half of a digit. -/
abbrev withTail (m : ℕ) (tail : Accuracy) : ExtendedMantissa :=
  ExtendedMantissa.ofMantissaAndAccuracy m tail

theorem mantissa_withTail (m : ℕ) (tail : Accuracy) : (withTail m tail).mantissa = m := by
  rcases tail with _ | _ | _ | _ <;> rfl

theorem shift_succ (em : ExtendedMantissa) (n : ℕ) : em >>> (n + 1) = (em >>> n).shiftRightOne := rfl

theorem mantissa_shift (em : ExtendedMantissa) (n : ℕ) : (em >>> n).mantissa = em.mantissa / 2 ^ n := by
  induction n with
  | zero => exact (Nat.div_one _).symm
  | succ n ih =>
    rw [shift_succ, ExtendedMantissa.shiftRightOne, ih, Nat.div_div_eq_div_mul, Nat.pow_succ]

/-- Dropping zeros loses nothing. -/
theorem shift_exact {m n : ℕ} (zeros : 2 ^ n ∣ m) :
    withTail m .exact >>> n = withTail (m / 2 ^ n) .exact := by
  induction n with
  | zero => rw [Nat.pow_zero, Nat.div_one]; rfl
  | succ n ih =>
    have even : m / 2 ^ n % 2 = 0 := by
      obtain ⟨k, rfl⟩ := zeros
      rw [Nat.pow_succ, Nat.mul_assoc, Nat.mul_div_cancel_left _ (Nat.two_pow_pos n), Nat.mul_mod_right]
    rw [shift_succ, ih ((Nat.pow_dvd_pow 2 n.le_succ).trans zeros)]
    simp [ExtendedMantissa.shiftRightOne, ExtendedMantissa.ofMantissaAndAccuracy, even,
      Nat.div_div_eq_div_mul, Nat.pow_succ]

theorem mantissa_le_rounded (em : ExtendedMantissa) :
    em.mantissa ≤ em.roundedMantissa ∧ em.roundedMantissa ≤ em.mantissa + 1 := by
  obtain ⟨m, _ | _, _ | _⟩ := em <;>
    simp only [ExtendedMantissa.roundedMantissa, ExtendedMantissa.accuracy, Accuracy.roundToNearestEven] <;>
    omega

/-- What lies strictly between two neighbours is rounded to either. -/
theorem rounds_between {f g : ℕ} {t : ℤ} {q : ℚ} (full : t = -1074 ∨ 2 ^ 52 ≤ f) (above : f * 2 ^ t < q)
    (below : q < (f + 1) * 2 ^ t) (least : f ≤ g) (most : g ≤ f + 1) : Rounds q (g * 2 ^ t) := by
  have unit : (0 : ℚ) < 2 ^ t := by positivity
  intro x hx
  rcases hx.multiple full with ⟨k, rfl⟩ | small
  · constructor
    · intro le
      have less : (k : ℚ) < f + 1 := lt_of_mul_lt_mul_right (le.trans_lt below) unit.le
      have : k < f + 1 := by exact_mod_cast less
      gcongr
      exact_mod_cast (show k ≤ g by omega)
    · intro le
      have less : (f : ℚ) < k := lt_of_mul_lt_mul_right (above.trans_le le) unit.le
      have : (f : ℤ) < k := by exact_mod_cast less
      gcongr
      exact_mod_cast (show (g : ℤ) ≤ k by omega)
  · refine ⟨fun _ => small.trans ?_, fun le => absurd (above.trans_le le) small.not_gt⟩
    gcongr

/-- A number is `m * 2 ^ e`, or lies strictly between that and the next multiple of `2 ^ e`. -/
def Tells (m : ℕ) (e : ℤ) : Accuracy → ℚ → Prop
  | .exact, q => q = m * 2 ^ e
  | .inexact _, q => m * 2 ^ e < q ∧ q < (m + 1) * 2 ^ e

/-- What is left of a mantissa bounds it. -/
theorem shifted_bounds (m n : ℕ) (e : ℤ) : ((m / 2 ^ n : ℕ) * 2 ^ (e + n) : ℚ) ≤ m * 2 ^ e ∧
    ((m + 1) * 2 ^ e : ℚ) ≤ ((m / 2 ^ n : ℕ) + 1) * 2 ^ (e + n) := by
  have digits (f : ℚ) : f * 2 ^ (e + n) = f * 2 ^ n * 2 ^ e := by
    rw [zpow_add₀ two_ne_zero, zpow_natCast]
    ring
  have below : m + 1 ≤ (m / 2 ^ n + 1) * 2 ^ n := by
    rw [Nat.add_mul, Nat.one_mul]
    exact Nat.lt_div_mul_add (Nat.two_pow_pos n)
  rw [digits, digits]
  constructor
  · gcongr
    exact_mod_cast Nat.div_mul_le_self m (2 ^ n)
  · gcongr
    exact_mod_cast below

/-- Dropping digits rounds a number, if enough digits are left. -/
theorem Tells.rounds {m n : ℕ} {e : ℤ} {tail : Accuracy} {q : ℚ} (h : Tells m e tail q)
    (full : e + n = -1074 ∨ 2 ^ 52 ≤ m / 2 ^ n) :
    Rounds q ((withTail m tail >>> n).roundedMantissa * 2 ^ (e + n)) := by
  obtain ⟨least, most⟩ := mantissa_le_rounded (withTail m tail >>> n)
  rw [mantissa_shift, mantissa_withTail] at least most
  obtain ⟨lower, upper⟩ := shifted_bounds m n e
  cases tail with
  | inexact _ => exact rounds_between full (lower.trans_lt h.1) (h.2.trans_le upper) least most
  | exact =>
    obtain rfl : q = m * 2 ^ e := h
    by_cases zeros : 2 ^ n ∣ m
    · have same : ((m / 2 ^ n : ℕ) * 2 ^ (e + n) : ℚ) = m * 2 ^ e := by
        obtain ⟨k, rfl⟩ := zeros
        rw [Nat.mul_div_cancel_left _ (Nat.two_pow_pos n), zpow_add₀ two_ne_zero, zpow_natCast]
        push_cast
        ring
      rw [shift_exact zeros, ← same]
      exact .refl _
    · -- something is lost, so the number lies strictly between two neighbours
      refine rounds_between full (lower.lt_of_ne fun same => zeros ?_) (lt_of_lt_of_le ?_ upper) least most
      · rw [zpow_add₀ two_ne_zero, zpow_natCast, mul_left_comm, mul_comm] at same
        have digits := mul_right_cancel₀ (zpow_ne_zero e two_ne_zero) same
        exact ⟨m / 2 ^ n, by rw [mul_comm]; exact_mod_cast digits.symm⟩
      · gcongr
        exact lt_add_one _

/-! ## Exponents -/

theorem targetExponent_eq (m : ℕ) (e : ℤ) :
    Format.binary64.targetExponent (totalExponent m e) = max (m.log2 + e - 52) (-1074) := by
  have digits : (Format.binary64.mantissaBits : ℤ) = 53 := rfl
  have least : Format.binary64.minExponent = -1074 := rfl
  rw [Format.targetExponent, totalExponent, digits, least]
  congr 1
  omega

/-- Enough digits are dropped for a mantissa of 53 digits, and no more unless the exponent is the least. -/
theorem exists_target {m : ℕ} {e : ℤ} (fine : e ≤ Format.binary64.targetExponent (totalExponent m e))
    (tail : Accuracy) :
    ∃ n : ℕ, shiftToTargetExponent Format.binary64 m e tail = (withTail m tail >>> n, e + n) ∧
      -1074 ≤ e + n ∧ m / 2 ^ n < 2 ^ 53 ∧ (e + n = -1074 ∨ 2 ^ 52 ≤ m / 2 ^ n) := by
  refine ⟨(Format.binary64.targetExponent (totalExponent m e) - e).toNat, rfl, ?_⟩
  rw [targetExponent_eq] at fine ⊢
  generalize hn : (max (m.log2 + e - 52) (-1074) - e).toNat = n
  refine ⟨by omega, ?_, ?_⟩
  · rw [Nat.div_lt_iff_lt_mul (Nat.two_pow_pos n), ← Nat.pow_add]
    exact Nat.lt_log2_self.trans_le (Nat.pow_le_pow_right Nat.two_pos (by omega))
  · by_cases low : e + n = -1074
    · exact .inl low
    · have some_digit : m ≠ 0 := by
        rintro rfl
        rw [Nat.log2_zero] at fine hn
        omega
      right
      rw [Nat.le_div_iff_mul_le (Nat.two_pow_pos n), ← Nat.pow_add]
      exact (Nat.pow_le_pow_right Nat.two_pos (by omega)).trans (Nat.log2_self_le some_digit)

/-- A mantissa that has grown by a digit gives it to the exponent. -/
theorem exists_carried {r : ℕ} {t : ℤ} (few : r ≤ 2 ^ 53) (least : -1074 ≤ t) (full : t = -1074 ∨ 2 ^ 52 ≤ r) :
    ∃ (em : ExtendedMantissa) (e : ℤ), shiftToTargetExponent Format.binary64 r t .exact = (em, e) ∧
      (em.mantissa * 2 ^ e : ℚ) = r * 2 ^ t ∧ em.mantissa < 2 ^ 53 ∧ -1074 ≤ e ∧
      (2 ^ 52 ≤ em.mantissa ∨ e = -1074) := by
  refine ⟨_, _, rfl, ?_⟩
  rw [targetExponent_eq, mantissa_shift, mantissa_withTail]
  rcases few.lt_or_eq with lt | rfl
  · have digits : r.log2 ≤ 52 := by
      rcases Nat.eq_zero_or_pos r with rfl | pos
      · decide
      · exact Nat.le_of_lt_succ ((Nat.log2_lt pos.ne').2 lt)
    have none_dropped : (max (r.log2 + t - 52) (-1074) - t).toNat = 0 := by omega
    rw [none_dropped, Nat.pow_zero, Nat.div_one, Nat.cast_zero, add_zero]
    exact ⟨rfl, by omega, least, full.symm⟩
  · rw [Nat.log2_two_pow]
    have one_dropped : (max (((53 : ℕ) : ℤ) + t - 52) (-1074) - t).toNat = 1 := by omega
    rw [one_dropped]
    refine ⟨?_, by norm_num, by omega, .inl (by norm_num)⟩
    rw [Nat.cast_one, zpow_add₀ two_ne_zero, zpow_one]
    norm_num
    ring

/-! ## Rounded numbers -/

/-- A number that is what a rational number is rounded to. -/
def Approximates (u : UnpackedFloat) (q : ℚ) : Prop :=
  Canonical u ∧ ∃ c, value? u = some (ofRat c) ∧ Rounds q c

theorem exponent_le {m : ℕ} {e : ℤ} (full : 2 ^ 52 ≤ m ∨ e = -1074)
    (bound : (m * 2 ^ e : ℚ) ≤ 2 ^ (1023 : ℤ)) : e ≤ 971 := by
  by_contra large
  have full : (2 : ℚ) ^ (52 : ℤ) ≤ m := by exact_mod_cast full.resolve_right (by omega)
  have powers : (2 : ℚ) ^ (52 + e) ≤ 2 ^ (1023 : ℤ) := by
    rw [zpow_add₀ two_ne_zero]
    exact (mul_le_mul_of_nonneg_right full (by positivity)).trans bound
  have := (zpow_le_zpow_iff_right₀ one_lt_two).1 powers
  omega

theorem Rounds.apply {m : ℕ} {e : ℤ} {q : ℚ} (h : Rounds q (m * 2 ^ e)) (s : Sign) :
    Rounds (s.apply 1 * q) (s.apply m * 2 ^ e) := by
  cases s with
  | positive => simpa only [Sign.apply, Int.cast_one, Int.cast_natCast, one_mul] using h
  | negative =>
    simpa only [Sign.apply, Int.cast_neg, Int.cast_one, Int.cast_natCast, neg_mul, one_mul] using h.neg

theorem apply_zero (s : Sign) : s.apply 0 = 0 := by cases s <;> rfl

theorem abs_apply (s : Sign) (m : ℕ) (e : ℤ) : |(s.apply m * 2 ^ e : ℚ)| = m * 2 ^ e := by
  have nonneg : (0 : ℚ) ≤ m * 2 ^ e := by positivity
  cases s with
  | positive => exact abs_of_nonneg nonneg
  | negative =>
    rw [Sign.apply, Int.cast_neg, Int.cast_natCast, neg_mul, abs_neg, abs_of_nonneg nonneg]

theorem apply_mul_right (s : Sign) (k l : ℤ) : s.apply (k * l) = s.apply k * l := by
  cases s with
  | positive => rfl
  | negative => exact neg_mul_eq_neg_mul k l

theorem apply_mul (s s' : Sign) (k l : ℤ) : (s * s').apply (k * l) = s.apply k * s'.apply l := by
  cases s <;> cases s'
  case negative.negative => exact (neg_mul_neg k l).symm
  case negative.positive => exact neg_mul_eq_neg_mul k l
  case positive.negative => exact neg_mul_eq_mul_neg k l
  case positive.positive => rfl

theorem apply_neg (s : Sign) (k : ℤ) : (-s).apply k = -s.apply k := by
  cases s with
  | positive => rfl
  | negative => exact (neg_neg k).symm

theorem apply_eq (s : Sign) (k : ℤ) : s.apply k = s.apply 1 * k := by
  rw [← apply_mul_right, one_mul]

/-- Rounding a number whose digits are fine enough. -/
theorem approximates_roundWithAccuracy {m : ℕ} {e : ℤ} {tail : Accuracy} {q : ℚ}
    (told : Tells m e tail q) (fine : e ≤ Format.binary64.targetExponent (totalExponent m e))
    (bound : q ≤ 2 ^ (1023 : ℤ)) (s : Sign) :
    Approximates (roundWithAccuracy Format.binary64 s m e tail) (s.apply 1 * q) := by
  obtain ⟨n, shifted, least, few, full⟩ := exists_target fine tail
  have rounds := told.rounds full
  obtain ⟨low, high⟩ := mantissa_le_rounded (withTail m tail >>> n)
  rw [mantissa_shift, mantissa_withTail] at low high
  obtain ⟨em, e', carried, same, few', least', full'⟩ :=
    exists_carried (r := (withTail m tail >>> n).roundedMantissa) (by omega) least
      (full.imp_right fun h => h.trans low)
  rw [← same] at rounds
  have small := exponent_le full' ((rounds _ (representable_two_zpow (by decide))).2 bound)
  have signed := rounds.apply s
  unfold roundWithAccuracy
  rw [shifted]
  simp only
  rw [carried]
  simp only
  split
  next none =>
    rw [none, Nat.cast_zero, apply_zero, Int.cast_zero, zero_mul] at signed
    exact ⟨trivial, 0, rfl, signed⟩
  next => exact ⟨⟨few', least', small, full'⟩, _, rfl, signed⟩

/-- Rounding a number all of whose digits are told. -/
theorem approximates_roundExact {m : ℕ} {e : ℤ}
    (fine : e ≤ Format.binary64.targetExponent (totalExponent m e))
    (bound : (m * 2 ^ e : ℚ) ≤ 2 ^ (1023 : ℤ)) (s : Sign) :
    Approximates (roundWithAccuracy Format.binary64 s m e .exact) (s.apply m * 2 ^ e) := by
  have told : Tells m e .exact (m * 2 ^ e) := rfl
  rw [apply_eq, Int.cast_mul, Int.cast_natCast, mul_assoc]
  exact approximates_roundWithAccuracy told fine bound s

/-- Moving digits from the exponent to the mantissa. -/
theorem exists_decreased (m : ℕ) (e t : ℤ) : ∃ n : ℕ,
    decreaseExponent m e t = (m * 2 ^ n, e - n) ∧ e - n ≤ t ∧ (t ≤ e → e - n = t) := by
  refine ⟨(e - t).toNat, ?_, by omega, by omega⟩
  rw [decreaseExponent, Nat.shiftLeft_eq]

theorem value_decreased (s : Sign) (m : ℕ) (e : ℤ) (n : ℕ) :
    (s.apply (m * 2 ^ n : ℕ) * 2 ^ (e - n) : ℚ) = s.apply m * 2 ^ e := by
  rw [zpow_sub₀ two_ne_zero, zpow_natCast, Nat.cast_mul, apply_mul_right]
  push_cast
  field_simp

theorem log2_mul_two_pow {m : ℕ} (pos : 0 < m) (n : ℕ) : (m * 2 ^ n).log2 = m.log2 + n := by
  rw [Nat.log2_eq_iff (Nat.mul_pos pos (Nat.two_pow_pos n)).ne', Nat.add_right_comm, Nat.pow_add, Nat.pow_add]
  exact ⟨Nat.mul_le_mul_right _ (Nat.log2_self_le pos.ne'),
    Nat.mul_lt_mul_of_pos_right Nat.lt_log2_self (Nat.two_pow_pos n)⟩

theorem approximates_round {m : ℕ} (pos : 0 < m) {e : ℤ} (bound : (m * 2 ^ e : ℚ) ≤ 2 ^ (1023 : ℤ))
    (s : Sign) : Approximates (UnpackedFloat.round Format.binary64 s m e) (s.apply m * 2 ^ e) := by
  unfold UnpackedFloat.round
  obtain ⟨n, decreased, fine, -⟩ :=
    exists_decreased m e (Format.binary64.targetExponent (totalExponent m e))
  simp only [decreased]
  have digits := log2_mul_two_pow pos n
  have total : totalExponent (m * 2 ^ n) (e - n) = totalExponent m e := by
    rw [totalExponent, totalExponent, digits]
    omega
  have same := value_decreased .positive m e n
  have signed := value_decreased s m e n
  rw [← signed]
  refine approximates_roundExact (by rwa [total]) ?_ s
  exact_mod_cast same.trans_le bound

theorem approximates_normalize {k e : ℤ} (bound : |(k * 2 ^ e : ℚ)| ≤ 2 ^ (1023 : ℤ)) (zeroSign : Sign) :
    Approximates (UnpackedFloat.normalize Format.binary64 k e zeroSign) (k * 2 ^ e) := by
  unfold UnpackedFloat.normalize
  rw [abs_mul, abs_of_pos (zpow_pos (two_pos : (0 : ℚ) < 2) e)] at bound
  split
  next negative =>
    have lt := Int.compare_eq_lt.1 negative
    obtain ⟨m, rfl⟩ : ∃ m : ℕ, k = -m := ⟨(-k).toNat, by omega⟩
    rw [Int.cast_neg, abs_neg, Int.cast_natCast, Nat.abs_cast] at bound
    rw [neg_neg, Int.toNat_natCast]
    exact approximates_round (by omega) bound .negative
  next zero =>
    rw [Int.compare_eq_eq.1 zero, Int.cast_zero, zero_mul]
    exact ⟨trivial, 0, rfl, .refl 0⟩
  next positive =>
    have lt := Int.compare_eq_gt.1 positive
    obtain ⟨m, rfl⟩ : ∃ m : ℕ, k = m := ⟨k.toNat, by omega⟩
    rw [Int.cast_natCast, Nat.abs_cast] at bound
    exact approximates_round (by omega) bound .positive

end Counsel.Machine
