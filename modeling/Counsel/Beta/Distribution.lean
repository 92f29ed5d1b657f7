/-
The distribution function of the beta distribution, the regularised incomplete beta integral, by a
continued fraction.
-/
import Counsel.Beta.LogGamma
import Counsel.Beta.LogOnePlus

namespace Counsel.Beta

def offZero (v : Float) : Float := if v.abs < 1e-300 then 1e-300 else v

/-- The steps of the continued fraction from the `m`-th on, `limit` of them at most. -/
def fractionSteps (a b x : Float) (m c d h : Float) : Nat → Float
  | 0 => h
  | limit + 1 =>
    let m2 := 2.0 * m
    let even := m * (b - m) * x / ((a - 1.0 + m2) * (a + m2))
    let d := 1.0 / offZero (1.0 + even * d)
    let c := offZero (1.0 + even / c)
    let h := h * (d * c)
    let odd := -(a + m) * (a + b + m) * x / ((a + m2) * (a + 1.0 + m2))
    let d := 1.0 / offZero (1.0 + odd * d)
    let c := offZero (1.0 + odd / c)
    let delta := d * c
    let h := h * delta
    if (delta - 1.0).abs < 3.0e-12 then h else fractionSteps a b x (m + 1.0) c d h limit

/-- The continued fraction of the incomplete beta integral. -/
def continuedFraction (a b x : Float) : Float :=
  let d := 1.0 / offZero (1.0 - (a + b) * x / (a + 1.0))
  fractionSteps a b x 1.0 1.0 d d 200

def isShape (a : Float) : Bool := a.isFinite && 0.0 < a

/-- The probability of a value of at most `x` under the beta distribution of `a` and `b`. -/
def distribution (x a b : Float) : Float :=
  if x.isNaN || !(isShape a && isShape b) then undefinedNumber
  else if x ≤ 0.0 then 0.0
  else if 1.0 ≤ x then 1.0
  else
    let front := (a * x.log + b * logOnePlus (-x) - logBeta a b).exp
    if x < (a + 1.0) / (a + b + 2.0) then front * continuedFraction a b x / a
    else 1.0 - front * continuedFraction b a (1.0 - x) / b

end Counsel.Beta
