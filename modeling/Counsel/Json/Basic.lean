/-
JSON documents as they are written: numbers keep the form of their literal, objects keep repeated
names, and a string whose escapes do not spell characters is kept apart from all texts.
-/
import Counsel.Decimal.Written

namespace Counsel

/-- A number literal, `± mantissa · 10 ^ exponent`. -/
structure Literal where
  negative : Bool
  mantissa : Nat
  exponent : Int
  /-- Written without a fraction and without an exponent. -/
  integral : Bool
  deriving DecidableEq

namespace Literal

/-- The 64-bit natural number that a literal is, if it is one. -/
def natural? (l : Literal) : Option Nat :=
  if l.integral && !l.negative && decide (l.mantissa < Nat.pow 2 64) then some l.mantissa else none

/-- The signed 64-bit integer that a literal is, if it is one; `-0` is none. -/
def integer? (l : Literal) : Option Int :=
  if !l.integral then none
  else if l.negative then
    if 0 < l.mantissa && decide (l.mantissa ≤ Nat.pow 2 63) then some (-(l.mantissa : Int))
    else none
  else if l.mantissa < Nat.pow 2 63 then some l.mantissa
  else none

/-- The machine number nearest to a literal; nothing if it is past the largest one. -/
def float? (l : Literal) : Option Float :=
  let size := (Double.digitCount l.mantissa : Int) + l.exponent
  let magnitude : Float :=
    if l.mantissa = 0 ∨ size < -400 then 0.0
    else if 400 < size then 1.0 / 0.0
    else if 0 ≤ l.exponent then
      Float.ofScientific (l.mantissa * Nat.pow 10 l.exponent.toNat) false 0
    else Float.ofScientific l.mantissa true (-l.exponent).toNat
  if magnitude.isFinite then some (if l.negative then -magnitude else magnitude) else none

end Literal

/-- A JSON document. -/
inductive Json where
  | null
  | bool (b : Bool)
  | number (literal : Literal)
  /-- Nothing if an escape of the string is one half of a character. -/
  | string (text : Option String)
  | array (items : List Json)
  | object (members : List (Option String × Json))

namespace Json

/-- The text of a string. -/
def string? : Json → Option String
  | .string text => text
  | _ => none

/-- The last member of a name. -/
def member? (json : Json) (name : String) : Option Json :=
  match json with
  | .object members => (members.reverse.find? fun m => m.1 == some name).map (·.2)
  | _ => none

end Json

end Counsel
