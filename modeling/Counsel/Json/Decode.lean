/-
Taking JSON documents apart. A decoder gives a value or says why a document is refused: because it
has another form, or because it holds something that is no domain value.
-/
import Counsel.Assignment
import Counsel.Json.Quoted

namespace Counsel

/-- Why a document is refused. -/
inductive DecodeFault where
  | form
  | value
  deriving DecidableEq

/-- A way to take a document apart. -/
abbrev Decode (β : Type) := Json → Except DecodeFault β

namespace Decode

variable {β : Type}

/-- What was found, or a fault. -/
def found (fault : DecodeFault) : Option β → Except DecodeFault β
  | some x => .ok x
  | none => .error fault

/-! ## Documents without parts -/

def bool : Decode Bool
  | .bool b => .ok b
  | _ => .error .form

def text : Decode String := fun json => found .form json.string?

/-- A natural number below `2 ^ 64`. -/
def natural : Decode Nat
  | .number l => found .form l.natural?
  | _ => .error .form

/-- A signed 64-bit integer. -/
def integer : Decode Int
  | .number l => found .form l.integer?
  | _ => .error .form

def word : Decode UInt64 := fun json => return UInt64.ofNat (← natural json)

/-- A finite machine number. -/
def finite : Decode Float
  | .number l => found .form l.float?
  | _ => .error .form

/-- A machine number; those that are not finite are given by their names. -/
def float : Decode Float
  | .string (some "NaN") => .ok (0.0 / 0.0)
  | .string (some "inf") => .ok (1.0 / 0.0)
  | .string (some "-inf") => .ok (-1.0 / 0.0)
  | json => finite json

def value : Decode Value := fun json => found .value (Value.ofJson? json)

/-! ## Documents with parts -/

/-- A document or `null`. -/
def optional (decode : Decode β) : Decode (Option β)
  | .null => .ok none
  | json => some <$> decode json

def list (decode : Decode β) : Decode (List β)
  | .array items => items.mapM decode
  | _ => .error .form

/-- A list, of which `null` is the empty one. -/
def items (decode : Decode β) : Decode (List β)
  | .null => .ok []
  | json => list decode json

/-- An object as a map, of which a later member wins over an earlier one of the same name. -/
def members (fault : DecodeFault) (decode : Decode β) : Decode (NameMap β)
  | .object members => do
    return .ofList (← members.mapM fun (name, json) =>
      return (← found fault name, ← decode json))
  | _ => .error fault

/-- An assignment. -/
def assignment : Decode Assignment := members .value value

/-- A member of an object, unless it is missing or `null`. -/
def member? (name : String) (decode : Decode β) : Decode (Option β) := fun json =>
  optional decode ((json.member? name).getD .null)

/-- A member that must be there. -/
def member (name : String) (decode : Decode β) : Decode β := fun json => do
  found .form (← member? name decode json)

/-- A member, or its default. -/
def memberOr (name : String) (fallback : β) (decode : Decode β) : Decode β := fun json =>
  return (← member? name decode json).getD fallback

/-- A member that is a list, empty unless it is there. -/
def memberItems (name : String) (decode : Decode β) : Decode (List β) :=
  memberOr name [] (list decode)

end Decode

end Counsel
