/-
Sums, differences, products and comparisons of machine numbers, read as rational numbers: a result is the
exact one, rounded (`Stands.add`, `Stands.sub`, `Stands.mul`), and no rounding is seen where the exact one
can be represented.
-/
import Counsel.Proofs.Machine.Rounding

namespace Counsel.Machine

open Float.Model Float.Model.UnpackedFloat

/-! ## Numbers taken apart -/

theorem approximates_add {u v : UnpackedFloat} {a b : ℚ} (hu : Canonical u) (hv : Canonical v)
    (ha : value? u = some (ofRat a)) (hb : value? v = some (ofRat b)) (bound : |a + b| ≤ 2 ^ (1023 : ℤ)) :
    Approximates (UnpackedFloat.add Format.binary64 u v) (a + b) := by
  rcases zero_or_finite ha with ⟨s, rfl, rfl⟩ | ⟨s, m, e, pos, rfl, rfl⟩ <;>
    rcases zero_or_finite hb with ⟨s', rfl, rfl⟩ | ⟨s', m', e', pos', rfl, rfl⟩
  · rw [add_zero]
    unfold UnpackedFloat.add
    simp only
    split
    · exact ⟨trivial, 0, rfl, .refl 0⟩
    · exact ⟨trivial, 0, rfl, .refl 0⟩
  · rw [zero_add]
    exact ⟨hv, _, rfl, .refl _⟩
  · rw [add_zero]
    exact ⟨hu, _, rfl, .refl _⟩
  · unfold UnpackedFloat.add
    obtain ⟨n, decreased, -, same⟩ := exists_decreased m e (min e e')
    obtain ⟨n', decreased', -, same'⟩ := exists_decreased m' e' (min e e')
    rw [same (min_le_left e e')] at decreased
    rw [same' (min_le_right e e')] at decreased'
    simp only [decreased, decreased']
    have sum : ((s.apply (m * 2 ^ n : ℕ) + s'.apply (m' * 2 ^ n' : ℕ) : ℤ) * 2 ^ min e e' : ℚ) =
        s.apply m * 2 ^ e + s'.apply m' * 2 ^ e' := by
      rw [Int.cast_add, add_mul, ← value_decreased s m e n, same (min_le_left e e'),
        ← value_decreased s' m' e' n', same' (min_le_right e e')]
    rw [← sum] at bound ⊢
    exact approximates_normalize bound .positive

/-- Taking a number away is adding its negative. -/
theorem unpacked_sub (u v : UnpackedFloat) :
    UnpackedFloat.sub Format.binary64 u v = UnpackedFloat.add Format.binary64 u v.neg := by
  cases u <;> cases v
  case finite.finite s m e _ s' m' e' _ =>
    simp only [UnpackedFloat.sub, UnpackedFloat.add, UnpackedFloat.neg, apply_neg, sub_eq_add_neg]
  all_goals rfl

theorem canonical_neg {u : UnpackedFloat} (h : Canonical u) : Canonical u.neg := by
  cases u <;> exact h

theorem value_neg {u : UnpackedFloat} {q : ℚ} (h : value? u = some (ofRat q)) :
    value? u.neg = some (ofRat (-q)) := by
  rcases zero_or_finite h with ⟨s, rfl, rfl⟩ | ⟨s, m, e, pos, rfl, rfl⟩
  · rw [neg_zero]
    rfl
  · rw [UnpackedFloat.neg, value?, apply_neg, Int.cast_neg, neg_mul]

/-- A canonical factor has all its digits or the least exponent, so a product has digits to drop. -/
theorem product_fine {m m' : ℕ} {e e' : ℤ} (pos : 0 < m) (pos' : 0 < m') (full : 2 ^ 52 ≤ m ∨ e = -1074)
    (full' : 2 ^ 52 ≤ m' ∨ e' = -1074) :
    e + e' ≤ Format.binary64.targetExponent (totalExponent (m * m') (e + e')) := by
  rw [targetExponent_eq, le_max_iff]
  rcases full with many | rfl
  · have := (Nat.le_log2 (Nat.mul_pos pos pos').ne').2 (many.trans (Nat.le_mul_of_pos_right m pos'))
    omega
  rcases full' with many | rfl
  · have := (Nat.le_log2 (Nat.mul_pos pos pos').ne').2 (many.trans (Nat.le_mul_of_pos_left m' pos))
    omega
  · exact .inr (by decide)

theorem approximates_mul {u v : UnpackedFloat} {a b : ℚ} (hu : Canonical u) (hv : Canonical v)
    (ha : value? u = some (ofRat a)) (hb : value? v = some (ofRat b)) (bound : |a * b| ≤ 2 ^ (1023 : ℤ)) :
    Approximates (UnpackedFloat.mul Format.binary64 u v) (a * b) := by
  rcases zero_or_finite ha with ⟨s, rfl, rfl⟩ | ⟨s, m, e, pos, rfl, rfl⟩ <;>
    rcases zero_or_finite hb with ⟨s', rfl, rfl⟩ | ⟨s', m', e', pos', rfl, rfl⟩
  · rw [mul_zero]
    exact ⟨trivial, 0, rfl, .refl 0⟩
  · rw [zero_mul]
    exact ⟨trivial, 0, rfl, .refl 0⟩
  · rw [mul_zero]
    exact ⟨trivial, 0, rfl, .refl 0⟩
  · obtain ⟨-, -, -, full⟩ := hu
    obtain ⟨-, -, -, full'⟩ := hv
    have product : ((s * s').apply (m * m' : ℕ) * 2 ^ (e + e') : ℚ) =
        s.apply m * 2 ^ e * (s'.apply m' * 2 ^ e') := by
      rw [zpow_add₀ two_ne_zero, Nat.cast_mul, apply_mul]
      push_cast
      ring
    rw [← product] at bound ⊢
    rw [abs_apply] at bound
    exact approximates_roundExact (product_fine pos pos' full full') bound _

/-! ## Machine numbers -/

/-- A machine number stands for a rational number. -/
def Stands (x : Float) (q : ℚ) : Prop := value? x.toModel.unpack = some (ofRat q)

variable {x y : Float} {a b : ℚ}

theorem canonical_toModel (x : Float) : Canonical x.toModel.unpack := canonical_unpack _

theorem stands_of_approximates {u : UnpackedFloat} {q : ℚ} (h : Approximates u q) :
    ∃ c, Stands ⟨.pack u⟩ c ∧ Rounds q c := by
  obtain ⟨canonical, c, value, rounds⟩ := h
  refine ⟨c, ?_, rounds⟩
  rw [Stands]
  exact (congrArg value? (unpack_pack canonical)).trans value

theorem Stands.add (hx : Stands x a) (hy : Stands y b) (bound : |a + b| ≤ 2 ^ (1023 : ℤ)) :
    ∃ c, Stands (x + y) c ∧ Rounds (a + b) c :=
  stands_of_approximates (approximates_add (canonical_toModel x) (canonical_toModel y) hx hy bound)

theorem Stands.sub (hx : Stands x a) (hy : Stands y b) (bound : |a - b| ≤ 2 ^ (1023 : ℤ)) :
    ∃ c, Stands (x - y) c ∧ Rounds (a - b) c := by
  rw [sub_eq_add_neg] at bound ⊢
  have h := approximates_add (canonical_toModel x) (canonical_neg (canonical_toModel y)) hx (value_neg hy) bound
  rw [← unpacked_sub] at h
  exact stands_of_approximates h

theorem Stands.mul (hx : Stands x a) (hy : Stands y b) (bound : |a * b| ≤ 2 ^ (1023 : ℤ)) :
    ∃ c, Stands (x * y) c ∧ Rounds (a * b) c :=
  stands_of_approximates (approximates_mul (canonical_toModel x) (canonical_toModel y) hx hy bound)

theorem Stands.of_rounds {q : ℚ} (h : ∃ c, Stands x c ∧ Rounds q c) (exact : Representable q) : Stands x q := by
  obtain ⟨c, stands, rounds⟩ := h
  rwa [rounds.eq exact] at stands

theorem abs_le_largest {q : ℚ} (h : |q| ≤ 2) : |q| ≤ 2 ^ (1023 : ℤ) :=
  h.trans ((zpow_one 2).symm.trans_le (zpow_le_zpow_right₀ one_le_two (by decide)))

/-! ## Order -/

/-- A machine number has a value, a rational number or an infinity. -/
def Valued (x : Float) (v : WithBot (WithTop ℚ)) : Prop := value? x.toModel.unpack = some v

variable {z : Float} {v w : WithBot (WithTop ℚ)}

theorem lt_iff_compare : x < y ↔ x.toModel.unpack.compare y.toModel.unpack = some .lt :=
  decide_eq_true_iff.trans beq_iff_eq

theorem le_iff_compare :
    x ≤ y ↔ ∃ o, x.toModel.unpack.compare y.toModel.unpack = some o ∧ o.isLE = true :=
  decide_eq_true_iff.trans (Option.any_eq_true _ _)

theorem Valued.compare_eq (hx : Valued x v) (hy : Valued y w) :
    x.toModel.unpack.compare y.toModel.unpack = some (cmp v w) := by
  rw [Machine.compare_eq (canonical_toModel x) (canonical_toModel y), hx, hy]
  rfl

theorem Valued.lt_iff (hx : Valued x v) (hy : Valued y w) : x < y ↔ v < w := by
  rw [lt_iff_compare, hx.compare_eq hy, Option.some_inj, cmp_eq_lt_iff]

theorem Valued.le_iff (hx : Valued x v) (hy : Valued y w) : x ≤ y ↔ v ≤ w := by
  simp only [le_iff_compare, hx.compare_eq hy, Option.some_inj, exists_eq_left', Ordering.isLE_iff_ne_gt,
    cmp_eq_gt_iff, not_lt]

/-- Numbers that compare have values. -/
theorem valued_of_compare {o : Ordering} (h : x.toModel.unpack.compare y.toModel.unpack = some o) :
    (∃ v, Valued x v) ∧ ∃ w, Valued y w := by
  rw [Machine.compare_eq (canonical_toModel x) (canonical_toModel y), Option.bind_eq_some_iff] at h
  obtain ⟨v, hx, h⟩ := h
  obtain ⟨w, hy, -⟩ := Option.map_eq_some_iff.1 h
  exact ⟨⟨v, hx⟩, w, hy⟩

theorem valued_of_le (h : x ≤ y) : (∃ v, Valued x v) ∧ ∃ w, Valued y w := by
  obtain ⟨o, compares, -⟩ := le_iff_compare.1 h
  exact valued_of_compare compares

theorem valued_of_lt (h : x < y) : (∃ v, Valued x v) ∧ ∃ w, Valued y w :=
  valued_of_compare (lt_iff_compare.1 h)

theorem le_trans (h : x ≤ y) (h' : y ≤ z) : x ≤ z := by
  obtain ⟨⟨u, hx⟩, v, hy⟩ := valued_of_le h
  obtain ⟨-, w, hz⟩ := valued_of_le h'
  exact (hx.le_iff hz).2 (((hx.le_iff hy).1 h).trans ((hy.le_iff hz).1 h'))

theorem lt_of_lt_of_le (h : x < y) (h' : y ≤ z) : x < z := by
  obtain ⟨⟨u, hx⟩, v, hy⟩ := valued_of_lt h
  obtain ⟨-, w, hz⟩ := valued_of_le h'
  exact (hx.lt_iff hz).2 (((hx.lt_iff hy).1 h).trans_le ((hy.le_iff hz).1 h'))

theorem le_of_lt (h : x < y) : x ≤ y := by
  obtain ⟨⟨u, hx⟩, v, hy⟩ := valued_of_lt h
  exact (hx.le_iff hy).2 ((hx.lt_iff hy).1 h).le

theorem not_le_of_lt (h : x < y) : ¬ y ≤ x := by
  obtain ⟨⟨u, hx⟩, v, hy⟩ := valued_of_lt h
  exact fun le => ((hy.le_iff hx).1 le).not_gt ((hx.lt_iff hy).1 h)

theorem Valued.isNaN_eq_false (h : Valued x v) : x.isNaN = false := by
  unfold Valued at h
  change x.toModel.unpack.isNaN = false
  generalize x.toModel.unpack = u at h
  cases u with
  | notANumber => exact nomatch h
  | _ => rfl

theorem Stands.lt_iff (hx : Stands x a) (hy : Stands y b) : x < y ↔ a < b :=
  (Valued.lt_iff hx hy).trans ofRat_lt_ofRat

theorem Stands.le_iff (hx : Stands x a) (hy : Stands y b) : x ≤ y ↔ a ≤ b :=
  (Valued.le_iff hx hy).trans ofRat_le_ofRat

/-- What lies between numbers that stand for rational numbers stands for one. -/
theorem Stands.between (hx : Stands x a) (hz : Stands z b) (low : x ≤ y) (high : y ≤ z) :
    ∃ q, Stands y q ∧ a ≤ q ∧ q ≤ b := by
  obtain ⟨-, v, hy⟩ := valued_of_le low
  have low := (Valued.le_iff hx hy).1 low
  have high := (Valued.le_iff hy hz).1 high
  rcases v with _ | _ | q
  · exact absurd low (bot_lt_ofRat a).not_ge
  · exact absurd high (ofRat_lt_top b).not_ge
  · exact ⟨q, hy, ofRat_le_ofRat.1 low, ofRat_le_ofRat.1 high⟩

/-! ## Constants -/

theorem stands_zero : Stands (Float.ofNat 0) 0 := rfl

theorem stands_one : Stands (Float.ofNat 1) 1 := by
  have parts : (Float.ofNat 1).toModel.unpack = .finite .positive (2 ^ 52) (-52) (by decide) := rfl
  rw [Stands, parts, value?]
  norm_num [Sign.apply]

theorem stands_half : Stands 0.5 (1 / 2) := by
  have parts : (0.5 : Float).toModel.unpack = .finite .positive (2 ^ 52) (-53) (by decide) := rfl
  rw [Stands, parts, value?]
  norm_num [Sign.apply]

/-- A millionth of a millionth, as a machine number. -/
theorem stands_tiny : Stands 1e-12 (4951760157141521 / 2 ^ 92) := by
  have parts : (1e-12 : Float).toModel.unpack = .finite .positive 4951760157141521 (-92) (by decide) := rfl
  rw [Stands, parts, value?]
  norm_num [Sign.apply]

end Counsel.Machine
