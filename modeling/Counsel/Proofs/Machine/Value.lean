/-
What binary64 numbers stand for. A finite number is a whole number below `2 ^ 53` times a power of two,
written in one way only (`Canonical`), so what is packed into a word and unpacked again is what it was
(`unpack_pack`), and numbers compare as what they stand for (`compare_eq`): rational numbers, with an
infinity on either side.
-/
import Mathlib

namespace Counsel.Machine

open Float.Model Float.Model.UnpackedFloat

/-! ## Canonical numbers -/

/-- The mantissa of a finite number has 53 bits, or fewer at the least exponent. -/
def Canonical : UnpackedFloat → Prop
  | .finite _ m e _ => m < 2 ^ 53 ∧ -1074 ≤ e ∧ e ≤ 971 ∧ (2 ^ 52 ≤ m ∨ e = -1074)
  | _ => True

theorem toNat_one_append (v : BitVec 52) : (1#1 ++ v).toNat = 2 ^ 52 + v.toNat := by
  rw [BitVec.toNat_append, ← Nat.shiftLeft_add_eq_or_of_lt v.isLt]
  rfl

/-- What a word stands for is canonical. -/
theorem canonical_unpack (b : BitVec Format.binary64.numBits) :
    Canonical (UnpackedFloat.unpack Format.binary64 b) := by
  have bias : Format.binary64.exponentBias = 1023 := rfl
  unfold UnpackedFloat.unpack
  simp only
  split
  next => split <;> trivial
  next odd =>
    split
    next zero =>
      split
      next => trivial
      next =>
        have lt : (unpackMantissa b).toNat < 2 ^ 52 := (unpackMantissa b).isLt
        rw [zero, bias]
        exact ⟨by omega, by decide, by decide, .inr rfl⟩
    next normal =>
      have lt : (unpackMantissa b).toNat < 2 ^ 52 := (unpackMantissa b).isLt
      have pos : (unpackExponent b).toNat ≠ 0 := fun h => normal (BitVec.eq_of_toNat_eq h)
      have top : (unpackExponent b).toNat ≠ 2047 := fun h => odd (BitVec.eq_of_toNat_eq h)
      have bound : (unpackExponent b).toNat < 2 ^ 11 := (unpackExponent b).isLt
      have digits := toNat_one_append (unpackMantissa b)
      exact ⟨by omega, by omega, by omega, .inl (by omega)⟩

theorem unpack_normal (s : Sign) {k m : ℕ} (pos : 0 < k) (lt : k < 2047) (full : 2 ^ 52 ≤ m)
    (few : m < 2 ^ 53) :
    UnpackedFloat.unpack Format.binary64
        (packComponents Format.binary64 s (BitVec.ofNat 11 k) (BitVec.ofNat 52 m)) =
      .finite s m (k - 1075) (by omega) := by
  have bias : Format.binary64.exponentBias = 1023 := rfl
  have exponent : (BitVec.ofNat 11 k).toNat = k := Nat.mod_eq_of_lt (by omega)
  have digits : (1#1 ++ BitVec.ofNat 52 m).toNat = m := by
    rw [toNat_one_append, BitVec.toNat_ofNat]
    omega
  have proper : BitVec.ofNat 11 k ≠ 0#11 := fun zero => by
    rw [zero, BitVec.toNat_zero] at exponent
    omega
  have even : BitVec.ofNat 11 k ≠ -1#11 := fun top => by
    rw [top] at exponent
    exact lt.ne exponent.symm
  unfold UnpackedFloat.unpack
  simp only [unpackMantissa_packComponents, unpackExponent_packComponents, unpackSign_packComponents,
    Sign.ofBitVec_toBitVec, even, proper, if_false, exponent, digits, bias]
  rfl

theorem unpack_subnormal (s : Sign) {m : ℕ} (pos : 0 < m) (few : m < 2 ^ 52) :
    UnpackedFloat.unpack Format.binary64
        (packComponents Format.binary64 s 0#11 (BitVec.ofNat 52 m)) = .finite s m (-1074) pos := by
  have digits : (BitVec.ofNat 52 m).toNat = m := Nat.mod_eq_of_lt few
  have some_digit : BitVec.ofNat 52 m ≠ 0#52 := fun zero => by
    rw [zero, BitVec.toNat_zero] at digits
    omega
  have even : 0#11 ≠ -1#11 := by decide
  unfold UnpackedFloat.unpack
  simp only [unpackMantissa_packComponents, unpackExponent_packComponents, unpackSign_packComponents,
    Sign.ofBitVec_toBitVec, even, if_false, if_true, some_digit, digits]
  rfl

/-- A canonical number is what its word stands for. -/
theorem unpack_pack {u : UnpackedFloat} (h : Canonical u) :
    UnpackedFloat.unpack Format.binary64 (UnpackedFloat.pack Format.binary64 u) = u := by
  cases u with
  | notANumber => exact unpack_packedNaN
  | zero s => exact unpack_packedZero
  | infinity s => simp [UnpackedFloat.unpack, UnpackedFloat.pack, packedInfinity]
  | finite s m e pos =>
    obtain ⟨few, least, most, full⟩ := h
    obtain ⟨k, rfl⟩ : ∃ k : ℕ, e = k - 1075 := ⟨(e + 1075).toNat, by omega⟩
    have biased : ((k : ℤ) - 1075 + Format.binary64.exponentBias +
        Format.binary64.mantissaBitsWithoutImplicit).toNat = k := by
      change ((k : ℤ) - 1075 + 1023 + 52).toNat = k
      omega
    have in_range : ¬ 2 ^ Format.binary64.exponentBits ≤ k + 1 := by
      change ¬ 2 ^ 11 ≤ k + 1
      omega
    unfold UnpackedFloat.pack
    simp only [biased, in_range, if_false]
    split
    next normal =>
      have full : 2 ^ 52 ≤ m := (Nat.le_log2 pos.ne').1 (Nat.succ.inj normal).ge
      exact unpack_normal s (by omega) (by omega) full few
    next subnormal =>
      have short : m < 2 ^ 52 := by
        by_contra long
        refine subnormal ?_
        have := (Nat.le_log2 pos.ne').2 (Nat.not_lt.1 long)
        have := (Nat.log2_lt pos.ne').2 few
        change m.log2 + 1 = 53
        omega
      obtain rfl : k = 1 := by omega
      exact unpack_subnormal s pos short

/-! ## Values -/

/-- A rational number among those with an infinity on either side. -/
def ofRat (q : ℚ) : WithBot (WithTop ℚ) := WithBot.some (WithTop.some q)

@[simp] theorem ofRat_lt_ofRat {a b : ℚ} : ofRat a < ofRat b ↔ a < b :=
  WithBot.coe_lt_coe.trans WithTop.coe_lt_coe

@[simp] theorem ofRat_le_ofRat {a b : ℚ} : ofRat a ≤ ofRat b ↔ a ≤ b :=
  WithBot.coe_le_coe.trans WithTop.coe_le_coe

theorem ofRat_injective {a b : ℚ} (h : ofRat a = ofRat b) : a = b :=
  le_antisymm (ofRat_le_ofRat.1 h.le) (ofRat_le_ofRat.1 h.ge)

theorem bot_lt_ofRat (q : ℚ) : ⊥ < ofRat q := WithBot.bot_lt_coe _

theorem ofRat_lt_top (q : ℚ) : ofRat q < ⊤ := WithBot.coe_lt_coe.2 (WithTop.coe_lt_top q)

/-- What a number stands for: a rational number or an infinity, and nothing if it is undefined. -/
def value? : UnpackedFloat → Option (WithBot (WithTop ℚ))
  | .notANumber => none
  | .infinity .negative => some ⊥
  | .infinity .positive => some ⊤
  | .zero _ => some (ofRat 0)
  | .finite s m e _ => some (ofRat (s.apply m * 2 ^ e))

/-- What stands for a rational number is a zero or a mantissa and an exponent. -/
theorem zero_or_finite {u : UnpackedFloat} {q : ℚ} (h : value? u = some (ofRat q)) :
    (∃ s, u = .zero s ∧ q = 0) ∨ ∃ s m e pos, u = .finite s m e pos ∧ q = s.apply m * 2 ^ e := by
  rcases u with (_ | _) | _ | s | ⟨s, m, e, pos⟩
  case infinity.negative => exact absurd (Option.some.inj h) (bot_lt_ofRat q).ne
  case infinity.positive => exact absurd (Option.some.inj h) (ofRat_lt_top q).ne'
  case notANumber => exact nomatch h
  case zero => exact .inl ⟨s, rfl, (ofRat_injective (Option.some.inj h)).symm⟩
  case finite => exact .inr ⟨s, m, e, pos, rfl, (ofRat_injective (Option.some.inj h)).symm⟩

/-- Numbers of fewer digits are smaller. -/
theorem lt_of_exponent_lt {m m' : ℕ} {e e' : ℤ} (lt : e < e') (few : m < 2 ^ 53) (full : 2 ^ 52 ≤ m') :
    (m * 2 ^ e : ℚ) < m' * 2 ^ e' := by
  have few' : (m : ℚ) < 2 ^ 53 := by exact_mod_cast few
  have full' : (2 ^ 52 : ℚ) ≤ m' := by exact_mod_cast full
  calc (m * 2 ^ e : ℚ) < 2 ^ 53 * 2 ^ e := by gcongr
    _ = 2 ^ 52 * 2 ^ (e + 1) := by rw [zpow_add₀ two_ne_zero]; ring
    _ ≤ m' * 2 ^ e' := by gcongr <;> [norm_num; omega]

theorem compare_finite {m m' : ℕ} {e e' : ℤ} {pos : 0 < m} {pos' : 0 < m'}
    (h : Canonical (.finite .positive m e pos)) (h' : Canonical (.finite .positive m' e' pos')) :
    (compare e e').then (compare m m') = cmp (m * 2 ^ e : ℚ) (m' * 2 ^ e') := by
  obtain ⟨few, least, -, full⟩ := h
  obtain ⟨few', least', -, full'⟩ := h'
  rcases lt_trichotomy e e' with lt | rfl | gt
  · have smaller := lt_of_exponent_lt lt few (full'.resolve_right (by omega))
    rw [Int.compare_eq_lt.2 lt, smaller.cmp_eq_lt]
    rfl
  · have scale : (0 : ℚ) < 2 ^ e := by positivity
    rw [Int.compare_eq_eq.2 rfl, cmp_mul_pos_right scale, ← cmp_eq_compare]
    exact (Nat.strictMono_cast (α := ℚ)).cmp_map_eq m m' |>.symm
  · have larger := lt_of_exponent_lt gt few' (full.resolve_right (by omega))
    rw [Int.compare_eq_gt.2 gt, larger.cmp_eq_gt]
    rfl

theorem cmp_ofRat (a b : ℚ) : cmp (ofRat a) (ofRat b) = cmp a b :=
  (show StrictMono ofRat from fun _ _ => ofRat_lt_ofRat.2).cmp_map_eq a b

/-- Numbers compare as what they stand for. -/
theorem compare_eq {u v : UnpackedFloat} (hu : Canonical u) (hv : Canonical v) :
    u.compare v = (value? u).bind fun a => (value? v).map (cmp a) := by
  have positive : ∀ {m : ℕ} (e : ℤ), 0 < m → (0 : ℚ) < m * 2 ^ e := fun e pos => by positivity
  have swapped : ∀ a b : ℚ, cmp (-a) (-b) = (cmp a b).swap := fun a b => by
    rw [cmp_swap]
    exact (show StrictAnti fun q : ℚ => -q from fun _ _ => neg_lt_neg).cmp_map_eq a b
  rcases u with (_ | _) | _ | _ | ⟨(_ | _), m, e, pos⟩ <;>
    rcases v with (_ | _) | _ | _ | ⟨(_ | _), m', e', pos'⟩ <;>
    simp only [value?, UnpackedFloat.compare, Option.bind_some, Option.bind_none, Option.map_some,
      Option.map_none, Option.some.injEq, cmp_ofRat, cmp_self_eq_eq, (bot_lt_ofRat _).cmp_eq_lt,
      (bot_lt_ofRat _).cmp_eq_gt, (ofRat_lt_top _).cmp_eq_lt, (ofRat_lt_top _).cmp_eq_gt, Sign.apply,
      Int.cast_neg, Int.cast_natCast, neg_mul]
  case infinity.negative.infinity.negative => rfl
  case infinity.negative.infinity.positive => rw [bot_lt_top.cmp_eq_lt]; rfl
  case infinity.positive.infinity.negative => rw [bot_lt_top.cmp_eq_gt]; rfl
  case infinity.positive.infinity.positive => rfl
  case zero.finite.negative => exact (neg_lt_zero.2 (positive e' pos')).cmp_eq_gt.symm
  case zero.finite.positive => exact (positive e' pos').cmp_eq_lt.symm
  case finite.negative.zero => exact (neg_lt_zero.2 (positive e pos)).cmp_eq_lt.symm
  case finite.negative.finite.negative =>
    have same := compare_finite (show Canonical (.finite .positive m e pos) from hu)
      (show Canonical (.finite .positive m' e' pos') from hv)
    rw [swapped, same]
  case finite.negative.finite.positive =>
    exact ((neg_lt_zero.2 (positive e pos)).trans (positive e' pos')).cmp_eq_lt.symm
  case finite.positive.zero => exact (positive e pos).cmp_eq_gt.symm
  case finite.positive.finite.negative =>
    exact ((neg_lt_zero.2 (positive e' pos')).trans (positive e pos)).cmp_eq_gt.symm
  case finite.positive.finite.positive => exact compare_finite hu hv

end Counsel.Machine
