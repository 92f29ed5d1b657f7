/-
Scopes: the distinct variables of a table, in the order of its index. The first variable counts
most.
-/
import Counsel.Diagram.Error
import Counsel.Assignment
import Counsel.MixedRadix

namespace Counsel

namespace Scope

/-- The first variable that came before. -/
def repeated? (seen : List VarId) : List Variable → Option Variable
  | [] => none
  | v :: rest => if v.id ∈ seen then some v else repeated? (v.id :: seen) rest

def bases (vars : List Variable) : List Nat := vars.map Variable.card

end Scope

/-- Distinct variables, few enough for every index to fit. -/
structure Scope where
  vars : List Variable
  distinct : Scope.repeated? [] vars = none
  fits : MixedRadix.size (Scope.bases vars) < MixedRadix.indexLimit

namespace Scope

/-- The scope of a list of variables. -/
def ofVars (vars : List Variable) : Except ModelError Scope :=
  match h : repeated? [] vars with
  | some v => .error (.repeatedInScope v.name)
  | none =>
    if k : MixedRadix.size (bases vars) < MixedRadix.indexLimit then .ok ⟨vars, h, k⟩
    else .error (.scopeTooLarge (vars.map (·.name)))

/-- The scope without variables, which has one cell. -/
def empty : Scope := ⟨[], rfl, by decide⟩

def size (scope : Scope) : Nat := MixedRadix.size (bases scope.vars)

/-- The ids of the variables, in order. -/
def ids (scope : Scope) : List VarId := scope.vars.map (·.id)

/-- The names of the variables, in order. -/
def names (scope : Scope) : List String := scope.vars.map (·.name)

def contains (scope : Scope) (id : VarId) : Bool := scope.ids.contains id

/-- The place of a variable in the scope. -/
def positionOf (scope : Scope) (id : VarId) : Option Nat := scope.vars.findIdx? (·.id == id)

/-- The other variables of the scope. -/
def without (scope : Scope) (id : VarId) : Except ModelError Scope :=
  ofVars (scope.vars.filter (·.id != id))

/-- The variables of a list, added to those collected so far unless excluded or present. -/
def collect (excluded : List VarId) : List Variable → List Variable → List Variable
  | vars, [] => vars
  | vars, v :: rest =>
    if excluded.contains v.id || vars.any (·.id == v.id) then collect excluded vars rest
    else collect excluded (vars ++ [v]) rest

/-- The variables of some scopes in the order of their first occurrence, less the excluded ones. -/
def union (scopes : List Scope) (excluded : List VarId) : Except ModelError Scope :=
  ofVars (collect excluded [] (scopes.flatMap (·.vars)))

/-! ## Indices -/

/-- The index of positions listed in scope order, if each is in its domain. -/
def indexOfPositions (scope : Scope) (positions : List Nat) : Option Nat :=
  if MixedRadix.InRange (bases scope.vars) positions then
    some (MixedRadix.encode (bases scope.vars) positions)
  else none

/-- The positions of an index, in scope order. -/
def positionsAt (scope : Scope) (index : Nat) : Option (List Nat) :=
  if index < scope.size then some (MixedRadix.decode (bases scope.vars) index) else none

/-- The position that slots hold for a variable. -/
def heldPosition (slots : Slots) (v : Variable) : Except ModelError Nat :=
  match slots.get? v.id with
  | some position => .ok position
  | none => .error (.missingAssignment v.name)

/-- The index of the positions held in slots. -/
def indexOfSlots (scope : Scope) (slots : Slots) : Except ModelError Nat := do
  let digits ← scope.vars.mapM (heldPosition slots)
  return MixedRadix.encode (bases scope.vars) digits

/-- Adds the position of a variable, times its stride, to an index, unless the variable is left out. -/
def addHeld (omitted : VarId) (slots : Slots) (index : Nat) :
    Variable × Nat → Except ModelError Nat
  | (v, stride) =>
    if v.id = omitted then .ok index
    else do return index + (← heldPosition slots v) * stride

/-- The index of the positions held in slots, but for one variable, which counts as if at its first. -/
def indexWithout (scope : Scope) (omitted : VarId) (slots : Slots) : Except ModelError Nat :=
  (scope.vars.zip (MixedRadix.strides (bases scope.vars))).foldlM (addHeld omitted slots) 0

/-- The slots with the positions of an index. -/
def fillSlots (scope : Scope) (index : Nat) (slots : Slots) : Except ModelError Slots :=
  match scope.positionsAt index with
  | none => .error (.indexOutOfRange index scope.size)
  | some positions => .ok (slots.setAll (scope.ids.zip positions))

/-- The position of an assignment's value in the domain of a variable. -/
def namedPosition (assignment : Assignment) (v : Variable) : Except ModelError Nat :=
  match assignment.get? v.name with
  | none => .error (.missingAssignment v.name)
  | some value =>
    match v.position? value with
    | none => .error (.unknownValue v.name value)
    | some position => .ok position

/-- The index of a named assignment; entries outside the scope do not matter. -/
def indexOf (scope : Scope) (assignment : Assignment) : Except ModelError Nat := do
  let digits ← scope.vars.mapM (namedPosition assignment)
  return MixedRadix.encode (bases scope.vars) digits

/-- The named assignment of an index. -/
def assignmentAt (scope : Scope) (index : Nat) : Except ModelError Assignment :=
  match scope.positionsAt index with
  | none => .error (.indexOutOfRange index scope.size)
  | some positions =>
    .ok (NameMap.ofList ((scope.vars.zip positions).filterMap fun (v, i) =>
      v.domain[i]?.map (v.name, ·)))

/-- The positions of some variables in a named assignment. -/
def slotsOf (vars : List Variable) (assignment : Assignment) : Except ModelError Slots := do
  let positions ← vars.mapM (namedPosition assignment)
  return Slots.empty.setAll ((vars.map (·.id)).zip positions)

end Scope

end Counsel
