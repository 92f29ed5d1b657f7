/-
Quantiles and credible intervals. A quantile is the middle of the cell that forty halvings leave, so it lies
in the unit range and grows with the probability (`quantileBy_mono`), even where the distribution function
does not: only comparisons of its values with the two probabilities are used. The two probabilities of an
interval are in order (`tail_le`), rounding included, and so are its ends.
-/
import Counsel.Proofs.Beta.Bisection

namespace Counsel.Beta

open Machine

variable {a b p q level : Float}

/-! ## Quantiles -/

section QuantileBy

variable {below : Float → Float → Bool}

theorem quantileBy_of_le_zero (h : p ≤ 0) : quantileBy below p = 0 := if_pos h

theorem quantileBy_of_one_le (positive : ¬ p ≤ 0) (h : 1 ≤ p) : quantileBy below p = 1 :=
  (if_neg positive).trans (if_pos h)

theorem quantileBy_inside (positive : ¬ p ≤ 0) (h : ¬ 1 ≤ p) :
    quantileBy below p = middle (halvings (below · p) 40) := by
  have forty := bisect_eq (below · p) 100
  rw [quantileBy, if_neg positive, if_neg h, forty]
  rfl

/-- A quantile lies in the unit range. -/
theorem quantileBy_unit (below : Float → Float → Bool) (p : Float) :
    0 ≤ quantileBy below p ∧ quantileBy below p ≤ 1 := by
  by_cases low : p ≤ 0
  · rw [quantileBy_of_le_zero low]
    exact ⟨(stands_zero.le_iff stands_zero).2 le_rfl, (stands_zero.le_iff stands_one).2 zero_le_one⟩
  by_cases high : 1 ≤ p
  · rw [quantileBy_of_one_le low high]
    exact ⟨(stands_zero.le_iff stands_one).2 zero_le_one, (stands_one.le_iff stands_one).2 le_rfl⟩
  · rw [quantileBy_inside low high]
    obtain ⟨k, cell⟩ := exists_cell (below · p) (by decide : 40 ≤ 53)
    have inside := cell.inside
    refine ⟨(stands_zero.le_iff (cell.middle (by decide))).2 (by positivity),
      ((cell.middle (by decide)).le_iff stands_one).2 ?_⟩
    rw [div_le_one₀ (by positivity)]
    exact_mod_cast (show 2 * k + 1 ≤ 2 ^ 41 by omega)

/-- A quantile at a larger probability is no smaller, if what is below the one is below the other. -/
theorem quantileBy_mono (implies : ∀ x, below x p = true → below x q = true) (h : p ≤ q) :
    quantileBy below p ≤ quantileBy below q := by
  by_cases low : p ≤ 0
  · rw [quantileBy_of_le_zero low]
    exact (quantileBy_unit below q).1
  have low' : ¬ q ≤ 0 := fun le => low (Machine.le_trans h le)
  by_cases high' : 1 ≤ q
  · rw [quantileBy_of_one_le low' high']
    exact (quantileBy_unit below p).2
  have high : ¬ 1 ≤ p := fun le => high' (Machine.le_trans le h)
  rw [quantileBy_inside low high, quantileBy_inside low' high']
  exact middle_halvings_le implies (by decide)

end QuantileBy

theorem quantile_eq [Ranking Float] (shape : isShape a = true) (shape' : isShape b = true)
    {v : WithBot (WithTop ℚ)} (value : Valued p v) :
    quantile p a b = quantileBy (Ranking.below a b) p := by
  rw [quantile, value.isNaN_eq_false, shape, shape']
  rfl

/-! ## Credible intervals -/

/-- The probability left out on the left is at most the one reached on the right. -/
theorem tail_le (nonneg : 0 ≤ level) (less : level < 1) : 0.5 * (1 - level) ≤ 1 - 0.5 * (1 - level) := by
  have half : Representable (1 / 2) := ⟨1, -1, by decide, by decide, by norm_num⟩
  obtain ⟨l, stands, low, high⟩ := stands_zero.between stands_one nonneg (Machine.le_of_lt less)
  obtain ⟨c, standsRest, rest⟩ := stands_one.sub stands (abs_le_largest (abs_le.2 ⟨by linarith, by linarith⟩))
  have restLow := (rest 0 representable_zero).1 (by linarith)
  have restHigh := (rest 1 representable_one).2 (by linarith)
  obtain ⟨d, standsTail, tail⟩ :=
    stands_half.mul standsRest (abs_le_largest (abs_le.2 ⟨by linarith, by linarith⟩))
  have tailLow := (tail 0 representable_zero).1 (by linarith)
  have tailHigh := (tail _ half).2 (by linarith)
  obtain ⟨f, standsOther, other⟩ :=
    stands_one.sub standsTail (abs_le_largest (abs_le.2 ⟨by linarith, by linarith⟩))
  have otherLow := (other _ half).1 (by linarith)
  exact (standsTail.le_iff standsOther).2 (by linarith)

theorem credibleInterval_eq [Ranking Float] (a b level : Float) :
    credibleInterval a b level =
      if isShape a = true ∧ isShape b = true ∧ 0 ≤ level ∧ level < 1 then
        some (quantileBy (Ranking.below a b) (0.5 * (1 - level)),
          quantileBy (Ranking.below a b) (1 - 0.5 * (1 - level)))
      else none := by
  refine if_congr ?_ rfl rfl
  simp only [isShape, Bool.and_eq_true, decide_eq_true_eq]
  constructor
  · rintro ⟨⟨⟨⟨⟨finite, finite'⟩, positive⟩, positive'⟩, nonneg⟩, less⟩
    exact ⟨⟨finite, positive⟩, ⟨finite', positive'⟩, nonneg, less⟩
  · rintro ⟨⟨finite, positive⟩, ⟨finite', positive'⟩, nonneg, less⟩
    exact ⟨⟨⟨⟨⟨finite, finite'⟩, positive⟩, positive'⟩, nonneg⟩, less⟩

theorem quantile_mono [Ranking Float] (shape : isShape a = true) (shape' : isShape b = true)
    (implies : ∀ x : Float, Ranking.below a b x p = true → Ranking.below a b x q = true) (h : p ≤ q) :
    quantile p a b ≤ quantile q a b := by
  obtain ⟨⟨_, value⟩, _, value'⟩ := valued_of_le h
  rw [quantile_eq shape shape' value, quantile_eq shape shape' value']
  exact quantileBy_mono implies h

/-- What is left of a smaller probability is left of a larger one, by any distribution function. -/
theorem below_of_le (cdf : Float → Float → Float → Float) (h : p ≤ q) (x : Float) :
    (Ranking.ofDistribution cdf).below a b x p = true → (Ranking.ofDistribution cdf).below a b x q = true :=
  fun below => decide_eq_true (Machine.lt_of_lt_of_le (of_decide_eq_true below) h)

/-- Whatever values a distribution function takes, at whatever points: there is an interval unless a
parameter is no shape or the level is none, and its ends are quantiles, in order and within the unit
range; a bisection for a probability between 0 and 1 is forty halvings, of which the last leaves a cell
with ends on either side of the probability, as far as they were tested, and the quantile is its middle;
and quantiles grow with the probability. -/
theorem quantiles_in_order (cdf : Float → Float → Float → Float) (a b : Float) :
    letI : Ranking Float := .ofDistribution cdf
    (∀ level : Float,
      (credibleInterval a b level = none ↔
        ¬ (isShape a = true ∧ isShape b = true ∧ 0 ≤ level ∧ level < 1)) ∧
      (isShape a = true → isShape b = true → 0 ≤ level → level < 1 →
        ∃ low high : Float, credibleInterval a b level = some (low, high) ∧
          low = quantile (0.5 * (1 - level)) a b ∧ high = quantile (1 - 0.5 * (1 - level)) a b ∧
          0 ≤ low ∧ low ≤ high ∧ high ≤ 1)) ∧
    (isShape a = true → isShape b = true →
      (∀ p : Float, 0 < p → p < 1 →
        (∀ limit, bisect (fun x => cdf x a b < p) 0 1 limit =
          (halve fun x => cdf x a b < p)^[min limit 40] (0, 1)) ∧
        ∃ (k : ℕ) (left right : Float), k < 2 ^ 40 ∧
          (halve fun x => cdf x a b < p)^[40] (0, 1) = (left, right) ∧
          Stands left (k / 2 ^ 40) ∧ Stands right ((k + 1) / 2 ^ 40) ∧
          (left = 0 ∨ cdf left a b < p) ∧ (right = 1 ∨ ¬ cdf right a b < p) ∧
          Stands (quantile p a b) ((2 * k + 1) / 2 ^ 41)) ∧
      ∀ p q : Float, p ≤ q → quantile p a b ≤ quantile q a b) := by
  let _ : Ranking Float := .ofDistribution cdf
  refine ⟨fun level => ⟨?_, fun shape shape' nonneg less => ?_⟩, fun shape shape' =>
    ⟨fun p positive less => ⟨bisect_eq _, ?_⟩, fun p q le => ?_⟩⟩
  · rw [credibleInterval_eq, ite_eq_right_iff]
    exact ⟨fun h valid => Option.some_ne_none _ (h valid), fun h valid => absurd valid h⟩
  · have tail := tail_le nonneg less
    obtain ⟨⟨_, value⟩, _, value'⟩ := valued_of_le tail
    exact ⟨_, _, (credibleInterval_eq a b level).trans (if_pos ⟨shape, shape', nonneg, less⟩),
      (quantile_eq shape shape' value).symm, (quantile_eq shape shape' value').symm,
      (quantileBy_unit _ _).1, quantileBy_mono (below_of_le cdf tail) tail, (quantileBy_unit _ _).2⟩
  · obtain ⟨k, cell⟩ := exists_cell (fun x => cdf x a b < p) (by decide : 40 ≤ 53)
    have bracketed := bracketed_halvings (fun x => cdf x a b < p) 40
    have middle := cell.middle (by decide)
    refine ⟨k, _, _, cell.inside, rfl, cell.low, ?_, bracketed.low.imp_right of_decide_eq_true,
      bracketed.high.imp_right of_decide_eq_false, ?_⟩
    · exact_mod_cast cell.high
    · obtain ⟨⟨_, value⟩, -⟩ := valued_of_lt less
      rw [quantile_eq shape shape' value,
        quantileBy_inside (Machine.not_le_of_lt positive) (Machine.not_le_of_lt less)]
      exact_mod_cast middle
  · exact quantile_mono shape shape' (below_of_le cdf le) le

/-- The middle half of the uniform distribution. -/
theorem quantiles_of_uniform :
    letI : Ranking Float := .ofDistribution fun x _ _ => x
    isShape 1 = true ∧ (0 : Float) ≤ 0.5 ∧ (0.5 : Float) < 1 ∧ (0 : Float) < 0.25 ∧ (0.25 : Float) < 1 ∧
      (0.25 : Float) ≤ 0.75 ∧
      (∃ low high : Float, credibleInterval (1 : Float) 1 0.5 = some (low, high) ∧
        low = quantile (0.5 * (1 - 0.5)) 1 1 ∧ high = quantile (1 - 0.5 * (1 - 0.5)) 1 1 ∧
        0 ≤ low ∧ low ≤ high ∧ high ≤ 1) ∧
      (∃ k : ℕ, Stands (quantile 0.25 1 1) ((2 * k + 1) / 2 ^ 41)) ∧
      quantile 0.25 1 1 ≤ quantile 0.75 1 1 := by
  have shape : isShape 1 = true := by decide
  have nonneg : (0 : Float) ≤ 0.5 := by decide
  have less : (0.5 : Float) < 1 := by decide
  have positive : (0 : Float) < 0.25 := by decide
  have small : (0.25 : Float) < 1 := by decide
  have le : (0.25 : Float) ≤ 0.75 := by decide
  obtain ⟨interval, quantiles⟩ := quantiles_in_order (fun x _ _ => x) 1 1
  obtain ⟨halvings, grows⟩ := quantiles shape shape
  obtain ⟨-, k, left, right, -, -, -, -, -, -, middle⟩ := halvings 0.25 positive small
  exact ⟨shape, nonneg, less, positive, small, le, (interval 0.5).2 shape shape nonneg less,
    ⟨k, middle⟩, grows 0.25 0.75 le⟩

end Counsel.Beta
