/-
JSON documents put together from the texts of their parts. Numbers are written with the fewest
digits that read back; a zero has no sign, and what JSON has no number for becomes a string.
-/
import Counsel.Assignment
import Counsel.Json.Quoted

namespace Counsel.JsonText

/-! ## Parts without parts -/

/-- The missing value. -/
def null : String := "null"

def bool (b : Bool) : String := if b then "true" else "false"

/-- A natural number. -/
def nat (n : Nat) : String := toString n

def word (w : UInt64) : String := nat w.toNat

def text (s : String) : String := Json.quoted s

def value (v : Value) : String := v.toJsonText

/-- The text of a machine number, as a string unless the number is finite. -/
def finiteOr (x : Float) (written : String) : String := if x.isFinite then written else text written

/-- A machine number. -/
def float (x : Float) : String :=
  if x == 0 then "0.0" else finiteOr x ((Double.ofFloat x).write .pointed)

/-- A machine number rounded to a count of decimals. -/
def rounded (places : Nat) (x : Float) : String := finiteOr x ((Double.ofFloat x).rounded places)

/-! ## Documents with parts -/

def list (items : List String) : String := "[" ++ String.intercalate "," items ++ "]"

/-- A list of things written one by one. -/
def listOf {β : Type} (write : β → String) (items : List β) : String := list (items.map write)

def pair (a b : String) : String := list [a, b]

def object (members : List (String × String)) : String :=
  "\x7b" ++ String.intercalate "," (members.map fun (name, item) => text name ++ ":" ++ item) ++
    "\x7d"

/-- A thing that may be missing. -/
def orNull {β : Type} (write : β → String) (x : Option β) : String := x.elim null write

/-- A map as an object. -/
def named {β : Type} (write : β → String) (map : NameMap β) : String :=
  object (map.entries.map fun (name, item) => (name, write item))

/-- An assignment as an object. -/
def assignment (a : Assignment) : String := named value a

end Counsel.JsonText
