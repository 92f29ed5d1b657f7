/-
Quantiles of the beta distribution by bisection, and the equal-tailed credible interval. The
bisection asks only which midpoints lie below the quantile, so what it does is settled for every
way to answer that.
-/
import Counsel.Beta.Distribution
import Counsel.Scalar

namespace Counsel.Beta

variable {α : Type} [Scalar α]

/-- Knows on which side of a quantile a point lies: `below a b x p` tells whether the probability
of at most `x` under the beta distribution of `a` and `b` is less than `p`. -/
class Ranking (α : Type) where
  below : α → α → α → α → Bool

/-- The side of a point by a distribution function, which takes the point and then `a` and `b`. -/
@[reducible] def Ranking.ofDistribution (cdf : Float → Float → Float → Float) : Ranking Float :=
  ⟨fun a b x p => cdf x a b < p⟩

instance : Ranking Float := .ofDistribution distribution

/-- Halves a range until it is narrow or `limit` halvings are done; `below` tells whether a
midpoint lies left of the point looked for. -/
def bisect (below : α → Bool) (low high : α) : Nat → α × α
  | 0 => (low, high)
  | limit + 1 =>
    let middle := 0.5 * (low + high)
    let (low, high) := if below middle then (middle, high) else (low, middle)
    if high - low < 1e-12 then (low, high) else bisect below low high limit

/-- The point at the probability `p`, for a test of points against probabilities. -/
def quantileBy (below : α → α → Bool) (p : α) : α :=
  if p ≤ 0 then 0
  else if 1 ≤ p then 1
  else
    let (low, high) := bisect (below · p) 0 1 100
    0.5 * (low + high)

/-- The quantile of the beta distribution of `a` and `b` at the probability `p`. -/
def quantile [Ranking Float] (p a b : Float) : Float :=
  if p.isNaN || !(isShape a && isShape b) then undefinedNumber
  else quantileBy (Ranking.below a b) p

/-- The range that leaves out the same probability on either side and holds `level` of it; nothing
if `a` and `b` are no shape or `level` is not in `[0, 1)`. -/
def credibleInterval [Ranking α] (a b level : α) : Option (α × α) :=
  if Scalar.isFinite a && Scalar.isFinite b && decide (0 < a) && decide (0 < b) &&
      decide (0 ≤ level) && decide (level < 1) then
    let tail := 0.5 * (1 - level)
    some (quantileBy (Ranking.below a b) tail, quantileBy (Ranking.below a b) (1 - tail))
  else none

end Counsel.Beta
