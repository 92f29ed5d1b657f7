/-
Influence diagrams: chance variables with their conditional tables, decision variables with what is
known when they are made, and one utility table.
-/
import Counsel.Diagram.Factor

namespace Counsel

/-- A validated influence diagram. -/
structure Diagram (α : Type) where
  /-- The variables; the id of each is its place in this list. -/
  vars : List Variable
  /-- The conditional tables of the chance variables, by id. -/
  cpts : List (Option (Factor α))
  utility : Factor α
  /-- All variables, parents before children. -/
  topological : List VarId
  /-- How many factor numbers the tables of the diagram use. -/
  tableCount : Nat

namespace Diagram

variable {α : Type}

/-- The variable of an id. -/
def byId? (d : Diagram α) (id : VarId) : Option Variable := d.vars[id.index]?

/-- The variable of a name. -/
def lookup (d : Diagram α) (name : String) : Except ModelError Variable :=
  match d.vars.find? (·.name == name) with
  | some v => .ok v
  | none => .error (.unknownVariable name)

/-- The ids of a kind of variables, parents before children. -/
def orderOf (d : Diagram α) (kind : Kind) : List VarId :=
  d.topological.filter fun id => (d.byId? id).any (·.kind == kind)

/-- The chance variables, parents before children. -/
def chanceOrder (d : Diagram α) : List VarId := d.orderOf .chance

def decisionOrder (d : Diagram α) : List VarId := d.orderOf .decision

/-- The variables of some ids. -/
def pick (d : Diagram α) (ids : List VarId) : List Variable := ids.filterMap d.byId?

/-- The conditional table of a chance variable. -/
def cpt? (d : Diagram α) (id : VarId) : Option (Factor α) := d.cpts[id.index]?.join

/-- The conditional table of a named chance variable. -/
def cptOf (d : Diagram α) (name : String) : Except ModelError (Factor α) := do
  let v ← d.lookup name
  match d.cpt? v.id with
  | some f => return f
  | none => throw (.notChance name)

/-- All conditional tables, in the order of their children. -/
def probabilityFactors (d : Diagram α) : List (Factor α) := d.cpts.filterMap id

/-- The position that a named entry gives its variable. -/
def namedSlot (d : Diagram α) (entry : String × Value) : Except ModelError (VarId × Nat) := do
  let v ← d.lookup entry.1
  match v.position? entry.2 with
  | none => throw (.unknownValue entry.1 entry.2)
  | some position => return (v.id, position)

/-- The positions of a named assignment. -/
def slotsOf (d : Diagram α) (assignment : Assignment) : Except ModelError Slots := do
  return Slots.empty.setAll (← assignment.entries.mapM d.namedSlot)

/-- The named value that slots hold for a variable. -/
def namedValue (d : Diagram α) (slots : Slots) (id : VarId) : Except ModelError (String × Value) :=
  match d.byId? id with
  | none => .error (.unknownVariable id.render)
  | some v =>
    match (slots.get? id).bind (v.domain[·]?) with
    | some value => .ok (v.name, value)
    | none => .error (.missingAssignment v.name)

/-- The named assignment that slots hold for some variables. -/
def assignmentOf (d : Diagram α) (slots : Slots) (ids : List VarId) :
    Except ModelError Assignment := do
  return NameMap.ofList (← ids.mapM (d.namedValue slots))

/-- What the utility table holds for a named assignment. -/
def utilityAt [Scalar α] (d : Diagram α) (assignment : Assignment) : Except ModelError α :=
  d.utility.valueAt assignment

/-! ## Ancestors -/

def parentsOf (d : Diagram α) (id : VarId) : List VarId := (d.byId? id).elim [] (·.parents)

/-- The state of a search for ancestors: the variables that wait, the next one first, and the marks of
those that were met, by id. -/
structure Search where
  stack : List VarId
  marks : Array Bool

/-- All targets wait, the last one first. -/
def startSearch (d : Diagram α) (targets : List VarId) : Search where
  stack := targets.reverse
  marks := Array.replicate d.vars.length false

/-- Takes a variable off the stack. One that was not met before is marked, and its parents wait. -/
def visit (d : Diagram α) (s : Search) : Search :=
  match s.stack with
  | [] => s
  | id :: rest =>
    if s.marks.getD id.index true then { s with stack := rest }
    else
      { stack := (d.parentsOf id).reverse ++ rest, marks := s.marks.setIfInBounds id.index true }

/-- Marks of some variables and of all their ancestors, by id. A variable is marked once, so no more
than the targets and the parents of all variables are ever taken off the stack. -/
def ancestors (d : Diagram α) (targets : List VarId) : Array Bool :=
  let arcs := d.vars.foldl (fun count v => count + v.parents.length) 0
  (Nat.repeat d.visit (targets.length + arcs) (d.startSearch targets)).marks

/-- Marks of the chance variables whose tables can matter for the utility or the evidence. The
other chance variables are barren: summed out they give one. -/
def requisiteChance (d : Diagram α) (observed : Slots) : Array Bool :=
  let targets := d.utility.scope.ids ++ observed.assigned.map (·.1)
  let marks := d.ancestors targets
  d.vars.foldl
    (fun marks v => if v.isDecision then marks.setIfInBounds v.id.index false else marks) marks

end Diagram

end Counsel
