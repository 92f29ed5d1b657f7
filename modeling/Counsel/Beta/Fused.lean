/-
Products of machine numbers with a third number added, rounded once: the exact value is a whole
number times a power of two, and its leading 53 binary digits are kept, a half going to the even
neighbour.
-/
import Counsel.Decimal.Double

namespace Counsel.Beta

/-- A machine number as a whole number times a power of two, if it is finite. -/
def parts? (x : Float) : Option (Int × Int) :=
  match Double.ofFloat x with
  | .finite negative mantissa exponent =>
    some (if negative then -(mantissa : Int) else mantissa, exponent)
  | _ => none

/-- The machine number nearest to `m · 2 ^ e`, unless that is too small or too large for 53
digits. -/
def nearest (m e : Int) : Float :=
  let size := m.natAbs
  let excess := Nat.log2 size - 52
  let digits := (Double.Fraction.mk size (Nat.pow 2 excess)).roundEven
  let x := (Float.ofNat digits).scaleB (e + excess)
  if m < 0 then -x else x

/-- `x * y + z`, rounded once. -/
def mulAdd (x y z : Float) : Float :=
  match parts? x, parts? y, parts? z with
  | some (a, d), some (b, e), some (c, f) =>
    let low := min (d + e) f
    nearest (a * b * (Nat.pow 2 (d + e - low).toNat : Nat) + c * (Nat.pow 2 (f - low).toNat : Nat))
      low
  | _, _, _ => x * y + z

end Counsel.Beta
