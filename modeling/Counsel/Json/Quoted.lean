/-
Writing texts and values as JSON: a quote, a backslash and the control characters are escaped, all
else stands as it is.
-/
import Counsel.Json.Reader
import Counsel.Value

namespace Counsel.Json

/-- A hexadecimal digit, in small letters. -/
def hexChar (n : Nat) : Char := if n < 10 then Char.ofNat (48 + n) else Char.ofNat (87 + n)

/-- A character inside a quoted text. -/
def escaped (c : Char) : List Char :=
  if c == '"' then ['\\', '"']
  else if c == '\\' then ['\\', '\\']
  else if c == '\n' then ['\\', 'n']
  else if c == '\t' then ['\\', 't']
  else if c == '\r' then ['\\', 'r']
  else if c == '\x08' then ['\\', 'b']
  else if c == '\x0c' then ['\\', 'f']
  else if c.toNat < 0x20 then
    ['\\', 'u', '0', '0', hexChar (c.toNat / 16), hexChar (c.toNat % 16)]
  else [c]

def quoted (s : String) : String := String.ofList ('"' :: s.toList.flatMap escaped ++ ['"'])

end Counsel.Json

namespace Counsel.Value

def toJsonText : Value → String
  | .bool b => if b then "true" else "false"
  | .int n => toString n
  | .text s => Json.quoted s

/-- The value that a JSON document is: a truth value, a 64-bit integer or a text. -/
def ofJson? : Json → Option Value
  | .bool b => some (.bool b)
  | .number l => l.integer?.map .int
  | .string s => s.map .text
  | _ => none

/-- The values of a JSON list. -/
def listOfJson? : Json → Option (List Value)
  | .array items => items.mapM ofJson?
  | _ => none

/-- Values as a JSON list without spaces. -/
def listToJsonText (values : List Value) : String :=
  "[" ++ String.intercalate "," (values.map toJsonText) ++ "]"

end Counsel.Value
