/-
What can be wrong with a declaration, with a table or with an address in one.
-/
import Counsel.Diagram.Variable

namespace Counsel

/-- A factor in messages: its number and the names of its variables. -/
structure FactorLabel where
  number : Nat
  names : List String
  deriving DecidableEq

namespace FactorLabel

/-- A label in words, such as `f4(C,D)`. -/
def render (label : FactorLabel) : String :=
  "f" ++ toString label.number ++ "(" ++ String.intercalate "," label.names ++ ")"

end FactorLabel

/-- Why a declaration, a table or an address is refused. -/
inductive ModelError where
  | duplicateVariable (name : String)
  | emptyDomain (name : String)
  | duplicateValue (name : String) (value : Value)
  | unknownVariable (name : String)
  | unknownValue (name : String) (value : Value)
  | notChance (name : String)
  | decisionParentOfChance (decision child : String)
  | missingCpt (name : String)
  | duplicateCpt (name : String)
  | repeatedInScope (name : String)
  | tableSize (table : FactorLabel) (expected actual : Nat)
  /-- The sum is given as it is written in messages. -/
  | rowSum (name : String) (row : Nat) (sum : String)
  | invalidProbability (name : String) (index : Nat)
  | invalidUtility (index : Nat)
  | missingUtility
  | duplicateUtility
  | cycle (name : String)
  | scopeTooLarge (names : List String)
  | missingAssignment (name : String)
  | indexOutOfRange (index size : Nat)
  | notConditional (factor : FactorLabel)
  deriving DecidableEq

namespace ModelError

def message : ModelError → String
  | .duplicateVariable name => "duplicate variable name: " ++ name
  | .emptyDomain name => "variable " ++ name ++ " has an empty domain"
  | .duplicateValue name value =>
    "value " ++ value.render ++ " appears twice in the domain of " ++ name
  | .unknownVariable name => "unknown variable: " ++ name
  | .unknownValue name value =>
    "value " ++ value.render ++ " is not in the domain of " ++ name
  | .notChance name => name ++ " is not a chance variable"
  | .decisionParentOfChance decision child =>
    "decision " ++ decision ++ " cannot be a parent of chance variable " ++ child
  | .missingCpt name => "chance variable " ++ name ++ " has no conditional probability table"
  | .duplicateCpt name =>
    "chance variable " ++ name ++ " has more than one conditional probability table"
  | .repeatedInScope name => "variable " ++ name ++ " appears more than once in one table"
  | .tableSize table expected actual =>
    "table " ++ table.render ++ " has " ++ toString actual ++ " entries, expected " ++
      toString expected
  | .rowSum name row sum =>
    "row " ++ toString row ++ " of the table for " ++ name ++ " sums to " ++ sum ++
      ", expected 1"
  | .invalidProbability name index =>
    "table for " ++ name ++ " has a negative or non-finite entry at index " ++ toString index
  | .invalidUtility index => "utility table has a non-finite entry at index " ++ toString index
  | .missingUtility => "diagram has no utility table"
  | .duplicateUtility => "diagram has more than one utility table"
  | .cycle name => "diagram contains a cycle through " ++ name
  | .scopeTooLarge names =>
    "table over " ++ String.intercalate "," names ++ " exceeds the addressable size"
  | .missingAssignment name => "assignment is missing variable " ++ name
  | .indexOutOfRange index size =>
    "index " ++ toString index ++ " is out of range for size " ++ toString size
  | .notConditional factor =>
    "factor " ++ factor.render ++ " is not a conditional probability table"

end ModelError

end Counsel
