/-
The numbers that probabilities, utilities and estimates are made of. Everything above this module is
written for any `Scalar`: programs run on machine numbers, and exact statements are read off the
same definitions at the rational numbers.
-/
import Counsel.Decimal.Written

namespace Counsel

/-- Numbers to compute and to compare with. A machine number may be infinite or not a number. -/
class Scalar (α : Type) extends Zero α, One α, Add α, Sub α, Mul α, Div α, LT α, LE α, BEq α,
    OfScientific α where
  /-- A count as a number. -/
  ofNat : Nat → α
  /-- Neither infinite nor undefined. -/
  isFinite : α → Bool
  /-- The number as it is written in a style. -/
  write : Double.Style → α → String
  decLt : DecidableLT α
  decLe : DecidableLE α

instance Scalar.decidableLt {α : Type} [Scalar α] (x y : α) : Decidable (x < y) :=
  Scalar.decLt x y

instance Scalar.decidableLe {α : Type} [Scalar α] (x y : α) : Decidable (x ≤ y) :=
  Scalar.decLe x y

instance : Scalar Float where
  toZero := ⟨Float.ofNat 0⟩
  toOne := ⟨Float.ofNat 1⟩
  toAdd := instAddFloat
  toSub := instSubFloat
  toMul := instMulFloat
  toDiv := instDivFloat
  toLT := instLTFloat
  toLE := instLEFloat
  toBEq := instBEqFloat
  toOfScientific := ⟨Float.ofScientific⟩
  ofNat := Float.ofNat
  isFinite := Float.isFinite
  write style x := (Double.ofFloat x).write style
  decLt := Float.decLt
  decLe := Float.decLe

instance : Scalar Rat where
  toZero := ⟨0⟩
  toOne := ⟨1⟩
  toAdd := Rat.instAdd
  toSub := Rat.instSub
  toMul := Rat.instMul
  toDiv := Rat.instDiv
  toLT := Rat.instLT
  toLE := Rat.instLE
  toBEq := instBEqOfDecidableEq
  toOfScientific := Rat.instOfScientific
  ofNat n := Rat.instNatCast.natCast n
  isFinite _ := true
  write _ x := if x.den = 1 then toString x.num else toString x.num ++ "/" ++ toString x.den
  decLt := Rat.instDecidableLt
  decLe := Rat.instDecidableLe

namespace Scalar

variable {α : Type} [Scalar α]

/-- The smaller of a number and a bound. -/
def atMost (bound x : α) : α := if x < bound then x else bound

/-- The larger of two numbers; an undefined one gives way to the other. -/
def larger (x y : α) : α := if x < y || x != x then y else x

end Scalar

end Counsel
