/-
Names of runs: `run-` and twelve hexadecimal digits.
-/
namespace Counsel

/-- Whether a character is a hexadecimal digit, large or small. -/
def isHexDigit (c : Char) : Bool :=
  ('0' ≤ c && c ≤ '9') || ('a' ≤ c && c ≤ 'f') || ('A' ≤ c && c ≤ 'F')

/-- The name of a run. -/
structure RunId where
  text : String
  deriving DecidableEq

/-- The name that a text is, if it is one. -/
def RunId.parse? (text : String) : Option RunId :=
  match text.toList with
  | 'r' :: 'u' :: 'n' :: '-' :: digits =>
    if digits.length = 12 && digits.all isHexDigit then some ⟨text⟩ else none
  | _ => none

end Counsel
