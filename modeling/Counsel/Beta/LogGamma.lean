/-
The logarithm of the gamma function by a Lanczos sum with nine terms, and of the beta function.
Below one half the reflection formula leads back to arguments above it.
-/
namespace Counsel.Beta

def undefinedNumber : Float := 0.0 / 0.0

def infinite : Float := 1.0 / 0.0

/-- The ratio of a circle's circumference to its diameter. -/
def circleRatio : Float := 3.14159265358979323846

/-- Half the logarithm of twice the circle ratio. -/
def halfLogTwoPi : Float := 0.9189385332046728

/-- The first term of the sum. -/
def lanczosFirst : Float := 0.99999999999980993

/-- The coefficients of the further terms. -/
def lanczosRest : List Float :=
  [676.5203681218851, -1259.1392167224028, 771.3234287776531, -176.61502916214059,
    12.507343278686905, -0.13857109526572012, 9.9843695780195716e-6, 1.5056327351493116e-7]

/-- The terms `c / (x + i)` added to a number, `i` counting up. -/
def lanczosSum (x acc : Float) (i : Nat) : List Float → Float
  | [] => acc
  | c :: rest => lanczosSum x (acc + c / (x + Float.ofNat i)) (i + 1) rest

/-- The logarithm of the gamma function from one half on. -/
def logGammaUpper (z : Float) : Float :=
  let shifted := z - 1.0
  let series := lanczosSum shifted lanczosFirst 1 lanczosRest
  let t := shifted + 7.0 + 0.5
  halfLogTwoPi + (shifted + 0.5) * t.log - t + series.log

/-- The logarithm of the absolute value of the gamma function; undefined at its poles. -/
def logGamma (z : Float) : Float :=
  if z.isNaN || z == -infinite then undefinedNumber
  else if z == infinite then infinite
  else if z ≤ 0.0 && z - z.ceil == 0.0 then undefinedNumber
  else if z < 0.5 then
    circleRatio.log - (circleRatio * z).sin.abs.log - logGammaUpper (1.0 - z)
  else logGammaUpper z

/-- The logarithm of the beta function. -/
def logBeta (a b : Float) : Float := logGamma a + logGamma b - logGamma (a + b)

end Counsel.Beta
