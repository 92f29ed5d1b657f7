/-
Variables of a diagram, and partial assignments of positions in their domains.
-/
import Counsel.Value

namespace Counsel

/-- The number of a variable in its diagram, in the order of declaration. -/
structure VarId where
  index : Nat
  deriving DecidableEq

namespace VarId

def render (id : VarId) : String := "v" ++ toString id.index

end VarId

/-- Chance variables are drawn, decision variables are chosen. -/
inductive Kind where
  | chance
  | decision
  deriving DecidableEq

/-- A named variable with a finite domain. The parents of a chance variable are what its table is
conditioned on; those of a decision are what is known when it is made. -/
structure Variable where
  id : VarId
  name : String
  kind : Kind
  domain : List Value
  parents : List VarId
  deriving DecidableEq

namespace Variable

def isDecision (v : Variable) : Bool := v.kind == .decision

def card (v : Variable) : Nat := v.domain.length

/-- The place of a value in the domain. -/
def position? (v : Variable) (value : Value) : Option Nat := v.domain.findIdx? (· == value)

end Variable

/-- Positions in the domains of some variables. -/
structure Slots where
  cells : Array (Option Nat)

namespace Slots

def empty : Slots := ⟨#[]⟩

instance : Inhabited Slots := ⟨empty⟩

/-- The position of a variable, if it has one. -/
def get? (slots : Slots) (id : VarId) : Option Nat := slots.cells[id.index]?.join

/-- The slots with the position of one variable replaced, or taken away. -/
def set (slots : Slots) (id : VarId) (position : Option Nat) : Slots :=
  if id.index < slots.cells.size then ⟨slots.cells.setIfInBounds id.index position⟩
  else
    ⟨(slots.cells ++ Array.replicate (id.index - slots.cells.size) none).push position⟩

/-- Whether a variable has a position. -/
def isAssigned (slots : Slots) (id : VarId) : Bool := (slots.get? id).isSome

/-- The variables with a position, in the order of their ids. -/
def assigned (slots : Slots) : List (VarId × Nat) :=
  slots.cells.toList.zipIdx.filterMap fun (cell, i) => cell.map (⟨i⟩, ·)

/-- The slots with some positions set, one after the other. -/
def setAll (slots : Slots) : List (VarId × Nat) → Slots
  | [] => slots
  | (id, position) :: rest => (slots.set id (some position)).setAll rest

@[simp] theorem get?_empty (id : VarId) : empty.get? id = none := by simp [get?, empty]

/-- Setting a variable changes its look-up and no other. -/
theorem get?_set (slots : Slots) (id other : VarId) (position : Option Nat) :
    (slots.set id position).get? other = if id = other then position else slots.get? other := by
  have index_ne : id ≠ other → id.index ≠ other.index := fun h e => h (by
    cases id; cases other; simp_all)
  simp only [set, get?]
  split
  next h =>
    by_cases e : id = other
    · subst e; simp [h]
    · simp [e, index_ne e]
  next h =>
    have size :
        (slots.cells ++ Array.replicate (id.index - slots.cells.size) none).size = id.index := by
      simp; omega
    by_cases e : id = other
    · subst e
      rw [Array.getElem?_push]
      simp [size]
    · rw [Array.getElem?_push, if_neg (by rw [size]; exact Ne.symm (index_ne e)),
        Array.getElem?_append]
      simp only [e, if_false]
      split
      · rfl
      next k =>
        rw [Array.getElem?_eq_none (by omega : slots.cells.size ≤ other.index)]
        rw [Array.getElem?_replicate]
        split <;> rfl

end Slots

end Counsel
