/-
Factors evaluated with a memo. Computed cells are kept under the number of their factor and their
index, and one array of positions is changed in place and put back, also after a failure. The
answers are those of `Factor.cell`; what differs is that no cell is worked out twice.
-/
import Counsel.Diagram.Factor
import Std.Data.TreeMap

namespace Counsel

/-- The cells computed so far. -/
structure Memo (α : Type) where
  cells : Std.TreeMap Nat (α × Nat)

namespace Memo

variable {α : Type}

def empty : Memo α := ⟨∅⟩

/-- The key of a cell, one for each pair of a factor number and an index. -/
def key (number index : Nat) : Nat := number * MixedRadix.indexLimit + index

def get? (memo : Memo α) (number index : Nat) : Option (α × Nat) := memo.cells[key number index]?

def insert (memo : Memo α) (number index : Nat) (cell : α × Nat) : Memo α :=
  ⟨memo.cells.insert (key number index) cell⟩

end Memo

/-- Positions and memo during an evaluation. -/
structure Evaluation (α : Type) where
  slots : Slots
  memo : Memo α

/-- A step of an evaluation; what it did to the memo stays also when it fails. -/
abbrev Evaluate (α β : Type) := ExceptT ModelError (StateM (Evaluation α)) β

namespace Evaluate

variable {α β : Type}

/-- Gives a variable a position. -/
def assign (id : VarId) (position : Nat) : Evaluate α Unit :=
  modify fun e => { e with slots := e.slots.set id (some position) }

/-- The index that the positions have in a scope. -/
def index (scope : Scope) : Evaluate α Nat := fun e => (scope.indexOfSlots e.slots, e)

/-- Runs a step and gives a variable its former position back, whatever came of the step. -/
def restoring (id : VarId) (step : Evaluate α β) : Evaluate α β := fun e =>
  let former := e.slots.get? id
  let (result, e) := step e
  (result, { e with slots := e.slots.set id former })

/-- Runs a step under evidence. -/
def under (step : Evaluate α β) : List (VarId × Nat) → Evaluate α β
  | [] => step
  | (id, position) :: rest => restoring id do
    assign id position
    under step rest

/-- A cell from the memo, or computed and put there. -/
def remember (number index : Nat) (compute : Evaluate α (α × Nat)) : Evaluate α (α × Nat) := do
  match (← get).memo.get? number index with
  | some cell => return cell
  | none =>
    let cell ← compute
    modify fun e => { e with memo := e.memo.insert number index cell }
    return cell

end Evaluate

namespace Factor

variable {α : Type} [Scalar α]

open Evaluate

mutual

/-- The cell of a factor under the current positions. -/
def memoCell : Factor α → Evaluate α (α × Nat)
  | .table head values => do
    let index ← index head.scope
    match values[index]? with
    | some x => return (x, 0)
    | none => throw (.indexOutOfRange index head.scope.size)
  | .observed _ base evidence => do
    let (x, _) ← under (memoCell base) evidence
    return (x, 0)
  | .sum head axis parts => do
    let index ← index head.scope
    remember head.number index <| restoring axis.id do
      let x ← (List.range axis.card).foldlM (fun sum position => do
        assign axis.id position
        let x ← memoProduct parts 1
        return sum + x) 0
      return (x, 0)
  | .max head axis base => do
    let index ← index head.scope
    remember head.number index <| restoring axis.id do
      let best ← (List.range axis.card).foldlM (fun best position => do
        assign axis.id position
        let (x, _) ← memoCell base
        return betterCell best x position) none
      return best.getD (0, 0)

/-- A number times the values of some factors; once the product is zero the others do not matter. -/
def memoProduct : List (Factor α) → α → Evaluate α α
  | [], acc => return acc
  | f :: rest, acc => do
    let (x, _) ← memoCell f
    let acc := acc * x
    if acc == 0 then return acc else memoProduct rest acc

end

/-- The value of a factor under the current positions. -/
def memoValue (f : Factor α) : Evaluate α α := (·.1) <$> f.memoCell

/-- The best position of the variable of a maximum; nothing for other factors. -/
def memoArgmax (f : Factor α) : Evaluate α (Option Nat) :=
  match f with
  | .max .. => (fun c => some c.2) <$> f.memoCell
  | _ => return none

def fill (scope : Scope) (index : Nat) : Evaluate α Unit := fun e =>
  match scope.fillSlots index e.slots with
  | .ok slots => (.ok (), { e with slots })
  | .error err => (.error err, e)

/-- Every value of a factor, in the order of the indices. -/
def materialize (f : Factor α) : Evaluate α (List α) :=
  match f with
  | .table _ values => return values.toList
  | _ => (List.range f.scope.size).mapM fun index => do
    fill f.scope index
    f.memoValue

end Factor

namespace Evaluate

variable {α β : Type}

/-- The answer of an evaluation that starts from some positions and an empty memo. -/
def answerFrom (slots : Slots) (step : Evaluate α β) : Except ModelError β :=
  (step.run.run ⟨slots, Memo.empty⟩).1

end Evaluate

namespace Factor

variable {α : Type} [Scalar α]

/-- The value of a factor under a named assignment, by way of a memo. -/
def memoAt (f : Factor α) (assignment : Assignment) : Except ModelError α := do
  Evaluate.answerFrom (← Scope.slotsOf f.scope.vars assignment) f.memoValue

end Factor

end Counsel
