/-
The shortest decimal that reads back as a given binary64 number. A decimal reads back as the number
`m · 2 ^ e` when it lies in the interval half-way to the neighbours of that number, ends included
exactly if `m` is even. The search tries one digit, then two, and so on: on each decimal grid only
the two points beside the number need a look, and of two hits the nearer one is taken, the greater
one if both are equally near.
-/
import Counsel.Decimal.Double

namespace Counsel.Double

/-- `digits · 10 ^ exponent`. -/
structure Decimal where
  digits : Nat
  exponent : Int
  deriving DecidableEq

namespace Decimal

/-- The same number without zeros at the end of its digits; `limit` of them at most are dropped. -/
def trim (d : Decimal) : Nat → Decimal
  | 0 => d
  | limit + 1 =>
    if d.digits % 10 = 0 ∧ d.digits ≠ 0 then trim ⟨d.digits / 10, d.exponent + 1⟩ limit else d

end Decimal

/-- Whether `c · 10 ^ k` reads back as `m · 2 ^ e`. The gap below a power of two is half as wide. -/
def readsBack (m : Nat) (e : Int) (c : Nat) (k : Int) : Bool :=
  let below := if m = Nat.pow 2 52 ∧ -1074 < e then 4 * m - 1 else 4 * m - 2
  let low := (Fraction.ofBinary below (e - 2)).shift k
  let high := (Fraction.ofBinary (4 * m + 2) (e - 2)).shift k
  let ends := m % 2 = 0
  (match Fraction.compareNat c low with
    | .lt => false
    | .eq => ends
    | .gt => true) &&
  (match Fraction.compareNat c high with
    | .lt => true
    | .eq => ends
    | .gt => false)

/-- The decimal with `count` digits that reads back as `m · 2 ^ e`, nearest first. -/
def onGrid (m : Nat) (e : Int) (count : Nat) : Option Decimal :=
  let value := Fraction.ofBinary m e
  let k := value.decimalExponent + 1 - count
  let scaled := value.shift k
  let c := scaled.num / scaled.den
  match readsBack m e c k, readsBack m e (c + 1) k with
  | true, true => some ⟨scaled.roundHalfUp, k⟩
  | true, false => some ⟨c, k⟩
  | false, true => some ⟨c + 1, k⟩
  | false, false => none

/-- The shortest decimal that reads back as `m · 2 ^ e`, where `m` is not zero. -/
def shortest (m : Nat) (e : Int) : Decimal :=
  match (List.range 17).findSome? fun n => onGrid m e (n + 1) with
  | some d => d.trim 17
  | none =>
    let value := Fraction.ofBinary m e
    let k := value.decimalExponent - 16
    Decimal.trim ⟨(value.shift k).roundHalfUp, k⟩ 17

end Counsel.Double
