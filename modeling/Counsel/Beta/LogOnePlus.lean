/-
The logarithm of `1 + x` for `-1 < x ≤ 0`, accurate also where the sum `1 + x` loses digits of `x`.
The argument is written as `2^k (1 + f)` with `1 + f` near one. With `s = f / (2 + f)` the logarithm
of `1 + f` is `2 s` and higher odd powers of `s`, and `2 s` is `f - f² / 2 + s f² / 2`. What the sum
`1 + x` lost is made up for at the end.
-/
import Counsel.Beta.Fused

namespace Counsel.Beta

/-- The leading digits of the logarithm of two; its product with a small integer is exact. -/
def logTwoHigh : Float := 6.93147180369123816490e-1

/-- The digits of the logarithm of two after the leading ones. -/
def logTwoLow : Float := 1.90821492927058770002e-10

/-- The higher powers in `log ((1 + s) / (1 - s))`, divided by `s`, for the square `z` of `s`. -/
def higherPowers (z : Float) : Float :=
  let z2 := z * z
  let z4 := z2 * z2
  let second := mulAdd z 2.857142874366239149e-1 3.999999999940941908e-1
  let fourth := mulAdd z 1.818357216161805012e-1 2.222219843214978396e-1
  let sixth := mulAdd z 1.479819860511658591e-1 1.531383769920937332e-1
  mulAdd (z4 * z2) sixth
    (mulAdd z4 fourth (mulAdd z 6.666666666666735130e-1 (z2 * second)))

/-- `k log 2 + lost + f - square + rest`, the smallest terms added first. -/
def gather (k lost f square rest : Float) : Float :=
  k * logTwoHigh - ((square - (rest + mulAdd k logTwoLow lost)) - f)

/-- The logarithm of `2^k (1 + f)`, and `lost`. -/
def logScaled (k lost f : Float) : Float :=
  let square := 0.5 * f * f
  let s := f / (2.0 + f)
  gather k lost f square (s * (square + higherPowers (s * s)))

/-- The logarithm of `2^k (1 + f)`, and `lost`, for an `f` whose fourth power does not matter. -/
def logScaledNear (k lost f : Float) : Float :=
  gather k lost f (0.5 * f * f * mulAdd (-0.66666666666666666) f 1.0) 0.0

/-- Whether the fourth power of a number is below the precision of its logarithm. -/
def isNearZero (f : Float) : Bool := -1.430511474609375e-6 ≤ f && f < 9.5367431640625e-7

/-- The exponent `k` and the number `f` near zero with `u = 2^k (1 + f)`. -/
def scale (u : Float) : Float × Float :=
  let (mantissa, exponent) := u.frExp
  if 2.0 * mantissa < 1.4142131805419922 then (Float.ofInt (exponent - 1), 2.0 * mantissa - 1.0)
  else (Float.ofInt exponent, mantissa - 1.0)

/-- `log (1 + x)` for `-1 < x ≤ 0`. -/
def logOnePlus (x : Float) : Float :=
  if x.abs < 5.551115123125783e-17 then x
  else if x.abs < 1.862645149230957e-9 then x - x * x * 0.5
  else if -0.2928934097290039 < x then logScaled 0.0 0.0 x
  else
    let u := 1.0 + x
    let (k, f) := scale u
    let lost := if k == 0.0 then 0.0 else (x - (u - 1.0)) / u
    if isNearZero f then logScaledNear k lost f else logScaled k lost f

end Counsel.Beta
