/-
Binary64 numbers taken apart. A finite number is `±mantissa · 2 ^ exponent`, and the decimals that
round to it fill an interval around it; both are handled as exact fractions of natural numbers.
-/
namespace Counsel

/-- What a binary64 number stands for. -/
inductive Double where
  | nan
  | infinity (negative : Bool)
  | finite (negative : Bool) (mantissa : Nat) (exponent : Int)
  deriving DecidableEq

namespace Double

/-- The parts of a 64-bit word: sign, eleven bits of exponent, 52 bits of fraction. -/
def ofBits (word : Nat) : Double :=
  let negative := decide (word / Nat.pow 2 63 % 2 = 1)
  let field : Nat := word / Nat.pow 2 52 % 2048
  let fraction : Nat := word % Nat.pow 2 52
  if field = 2047 then (if fraction = 0 then .infinity negative else .nan)
  else if field = 0 then .finite negative fraction (-1074)
  else .finite negative (Nat.pow 2 52 + fraction) ((field : Int) - 1075)

/-- The parts of a machine number. -/
def ofFloat (x : Float) : Double := ofBits x.toBits.toNat

/-- A quotient of natural numbers, the second not zero. -/
structure Fraction where
  num : Nat
  den : Nat

namespace Fraction

/-- `m · 2 ^ e` as a quotient. -/
def ofBinary (m : Nat) (e : Int) : Fraction :=
  if 0 ≤ e then ⟨m * Nat.pow 2 e.toNat, 1⟩ else ⟨m, Nat.pow 2 (-e).toNat⟩

/-- The quotient divided by `10 ^ k`. -/
def shift (q : Fraction) (k : Int) : Fraction :=
  if 0 ≤ k then ⟨q.num, q.den * Nat.pow 10 k.toNat⟩ else ⟨q.num * Nat.pow 10 (-k).toNat, q.den⟩

/-- How a whole number compares with a quotient. -/
def compareNat (n : Nat) (q : Fraction) : Ordering := compare (n * q.den) q.num

/-- The whole number nearest to a quotient; of two equally near ones the even one. -/
def roundEven (q : Fraction) : Nat :=
  let whole := q.num / q.den
  match compare (2 * (q.num % q.den)) q.den with
  | .lt => whole
  | .gt => whole + 1
  | .eq => if whole % 2 = 0 then whole else whole + 1

/-- The whole number nearest to a quotient; of two equally near ones the greater one. -/
def roundHalfUp (q : Fraction) : Nat := (2 * q.num + q.den) / (2 * q.den)

end Fraction

/-- How many decimal digits a number has; zero has one. -/
def digitCount (n : Nat) : Nat := (Nat.toDigits 10 n).length

/-- The exponent of the power of ten at or below a positive quotient. -/
def Fraction.decimalExponent (q : Fraction) : Int :=
  if q.den ≤ q.num then (digitCount (q.num / q.den) : Int) - 1
  else -(digitCount ((q.den + q.num - 1) / q.num - 1) : Int)

end Double

end Counsel
