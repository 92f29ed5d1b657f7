/-
Texts between quotes as they stand in descriptions: a character that cannot be seen by itself, or a
mark that extends the one before it, is spelled by its code point.
-/
import Counsel.Text.Extending
import Counsel.Text.Unseen

namespace Counsel.Text

/-- Whether a character is spelled by its code point. -/
def isSpelled (c : Char) : Bool := isExtending c || isUnseen c

/-- The hexadecimal digits of a number. -/
def hexText (n : Nat) : String := String.ofList (Nat.toDigits 16 n)

/-- A character of a description. -/
def described (c : Char) : String :=
  if c == '"' then "\\\""
  else if c == '\\' then "\\\\"
  else if c == '\n' then "\\n"
  else if c == '\t' then "\\t"
  else if c == '\r' then "\\r"
  else if c == '\x00' then "\\0"
  else if isSpelled c then "\\u\x7b" ++ hexText c.toNat ++ "\x7d"
  else String.ofList [c]

/-- A text between quotes, for a description. -/
def describe (s : String) : String := "\"" ++ String.join (s.toList.map described) ++ "\""

end Counsel.Text
