/-
Factors: functions from the positions of some variables to numbers. A factor is a table, or it is
computed from other factors: with observed positions filled in, with a variable summed out of a
product, or with a variable maximised out. `Factor.cell` says what the cell under given positions
holds; nothing of a computed factor is worked out before it is asked for.
-/
import Counsel.Diagram.Scope
import Counsel.Scalar

namespace Counsel

/-- What a factor stands for. -/
inductive Role where
  /-- The distribution of a variable given the others. -/
  | probability (child : VarId)
  | utility
  /-- A result of elimination; whether the utility is part of it. -/
  | derived (carriesUtility : Bool)
  deriving DecidableEq

/-- What all factors have: a number, a scope and a role. -/
structure FactorHead where
  number : Nat
  scope : Scope
  role : Role

/-- A function from the positions of the variables of its scope to numbers. -/
inductive Factor (α : Type) where
  | table (head : FactorHead) (values : Array α)
  /-- The base factor with observed positions filled in. -/
  | observed (head : FactorHead) (base : Factor α) (evidence : List (VarId × Nat))
  /-- The sum over a variable of the product of the parts. -/
  | sum (head : FactorHead) (axis : Variable) (parts : List (Factor α))
  /-- The largest value over a variable of the base factor. -/
  | max (head : FactorHead) (axis : Variable) (base : Factor α)

namespace Factor

variable {α : Type}

/-- Number, scope and role of a factor. -/
def head : Factor α → FactorHead
  | .table head _ => head
  | .observed head _ _ => head
  | .sum head _ _ => head
  | .max head _ _ => head

def scope (f : Factor α) : Scope := f.head.scope

def role (f : Factor α) : Role := f.head.role

/-- A factor in messages. -/
def label (f : Factor α) : FactorLabel := ⟨f.head.number, f.scope.names⟩

/-- Whether a factor depends on a variable. -/
def mentions (f : Factor α) (id : VarId) : Bool := f.scope.contains id

/-- Whether the utility is part of a factor. -/
def carriesUtility (f : Factor α) : Bool :=
  match f.role with
  | .probability _ => false
  | .utility => true
  | .derived carries => carries

/-- The variable that a probability table is the distribution of. -/
def child? (f : Factor α) : Option VarId :=
  match f.role with
  | .probability child => some child
  | _ => none

/-! ## Construction -/

/-- A table, which has one value for each index of its scope. -/
def ofValues (number : Nat) (scope : Scope) (role : Role) (values : Array α) :
    Except ModelError (Factor α) :=
  if values.size = scope.size then .ok (.table ⟨number, scope, role⟩ values)
  else .error (.tableSize ⟨number, scope.names⟩ scope.size values.size)

/-- A factor with the positions of the observed variables that it mentions filled in. -/
def observe (number : Nat) (base : Factor α) (evidence : Slots) : Except ModelError (Factor α) := do
  let fixed := base.scope.ids.filterMap fun id => (evidence.get? id).map (id, ·)
  let scope ← Scope.union [base.scope] (fixed.map (·.1))
  return .observed ⟨number, scope, base.role⟩ base fixed

/-- The sum over a variable of the product of some factors. -/
def sumOut (number : Nat) (axis : Variable) (parts : List (Factor α)) :
    Except ModelError (Factor α) := do
  let scope ← Scope.union (parts.map (·.scope)) [axis.id]
  return .sum ⟨number, scope, .derived (parts.any carriesUtility)⟩ axis parts

/-- The largest value over a variable of a factor. -/
def maxOut (number : Nat) (axis : Variable) (base : Factor α) : Except ModelError (Factor α) := do
  let scope ← base.scope.without axis.id
  return .max ⟨number, scope, .derived base.carriesUtility⟩ axis base

/-! ## Cells -/

/-- The larger of the best value so far and the value at a position; the earlier one on a tie. -/
def betterCell [Scalar α] (best : Option (α × Nat)) (x : α) (position : Nat) : Option (α × Nat) :=
  match best with
  | none => some (x, position)
  | some (b, i) => if b < x then some (x, position) else some (b, i)

variable [Scalar α]

mutual

/-- What a factor holds under the positions of its variables: a value, and for a maximum the first
position of the maximised variable that attains it. -/
def cell : Factor α → Slots → Except ModelError (α × Nat)
  | .table head values, slots => do
    let index ← head.scope.indexOfSlots slots
    match values[index]? with
    | some x => return (x, 0)
    | none => throw (.indexOutOfRange index head.scope.size)
  | .observed _ base evidence, slots => do
    let (x, _) ← base.cell (slots.setAll evidence)
    return (x, 0)
  | .sum head axis parts, slots => do
    let _ ← head.scope.indexOfSlots slots
    let x ← (List.range axis.card).foldlM (fun sum position => do
      let x ← product parts (slots.set axis.id (some position)) 1
      return sum + x) 0
    return (x, 0)
  | .max head axis base, slots => do
    let _ ← head.scope.indexOfSlots slots
    let best ← (List.range axis.card).foldlM (fun best position => do
      let (x, _) ← base.cell (slots.set axis.id (some position))
      return betterCell best x position) none
    return best.getD (0, 0)

/-- A number times the values of some factors; once the product is zero the others do not matter. -/
def product : List (Factor α) → Slots → α → Except ModelError α
  | [], _, acc => .ok acc
  | f :: rest, slots, acc => do
    let (x, _) ← f.cell slots
    let acc := acc * x
    if acc == 0 then return acc else product rest slots acc

end

/-- The value of a factor under the positions of its variables. -/
def value (f : Factor α) (slots : Slots) : Except ModelError α := (f.cell slots).map (·.1)

/-- The value of a factor under a named assignment; entries outside the scope do not matter. -/
def valueAt (f : Factor α) (assignment : Assignment) : Except ModelError α := do
  f.value (← Scope.slotsOf f.scope.vars assignment)

/-- The best position of the variable of a maximum; nothing for other factors. -/
def argmax (f : Factor α) (slots : Slots) : Except ModelError (Option Nat) :=
  match f with
  | .max .. => (f.cell slots).map fun c => some c.2
  | _ => .ok none

/-! ## Conditional tables -/

/-- The child of a conditional table, which is the last variable of its scope. -/
def childVariable (f : Factor α) : Except ModelError Variable :=
  match f.role, f.scope.vars.getLast? with
  | .probability child, some last =>
    if last.id = child then .ok last else .error (.notConditional f.label)
  | _, _ => .error (.notConditional f.label)

/-- The distribution of the child of a conditional table under the positions of the parents. The
child comes last, so its entries are next to each other. -/
def row (f : Factor α) (slots : Slots) : Except ModelError (List α) :=
  match f with
  | .table head values => do
    let child ← f.childVariable
    let start ← head.scope.indexWithout child.id slots
    return (values.extract start (start + child.card)).toList
  | _ => .error (.notConditional f.label)

/-- The row of a conditional table under a named assignment of the parents. -/
def namedRow (f : Factor α) (parents : Assignment) : Except ModelError (Variable × List α) := do
  let child ← f.childVariable
  let slots ← Scope.slotsOf (f.scope.vars.filter (·.id != child.id)) parents
  return (child, ← f.row slots)

/-- The values of the child with their probabilities given the parents. -/
def conditional (f : Factor α) (parents : Assignment) : Except ModelError (List (Value × α)) := do
  let (child, row) ← f.namedRow parents
  return child.domain.zip row

/-- The probability of a value of the child given the parents. -/
def conditionalAt (f : Factor α) (parents : Assignment) (value : Value) : Except ModelError α := do
  let (child, row) ← f.namedRow parents
  match child.position? value with
  | none => throw (.unknownValue child.name value)
  | some position =>
    match row[position]? with
    | some x => return x
    | none => throw (.indexOutOfRange position row.length)

end Factor

end Counsel
