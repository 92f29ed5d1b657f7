/-
Tables with one cell for each joint assignment of a layout. An operation whose key is refused
changes nothing.
-/
import Counsel.Layout

namespace Counsel

/-- A cell for each index of a layout. -/
structure StateTable (β : Type) where
  layout : Layout
  cells : Array β
  size_cells : cells.size = layout.size

namespace StateTable

variable {β : Type}

/-- The table with the same content in every cell. -/
def replicate (layout : Layout) (content : β) : StateTable β :=
  ⟨layout, Array.replicate layout.size content, Array.size_replicate⟩

/-- The table whose cell `i` holds `content i`. -/
def generate (layout : Layout) (content : Nat → β) : StateTable β :=
  ⟨layout, Array.ofFn fun i : Fin layout.size => content i, Array.size_ofFn⟩

def size (table : StateTable β) : Nat := table.cells.size

/-- The content of a cell. -/
def at? (table : StateTable β) (index : Nat) : Option β := table.cells[index]?

/-- The table with the content of one cell replaced; an index out of range changes nothing. -/
def setAt (table : StateTable β) (index : Nat) (content : β) : StateTable β :=
  ⟨table.layout, table.cells.setIfInBounds index content, by simp [table.size_cells]⟩

def find (table : StateTable β) (key : Assignment) : Except LayoutError (Nat × β) := do
  let index ← table.layout.indexOf key
  match table.cells[index]? with
  | some content => return (index, content)
  | none => throw (.indexOutOfRange index table.size)

def get (table : StateTable β) (key : Assignment) : Except LayoutError β :=
  (table.find key).map (·.2)

/-- The previous content of the cell of a key, and the table with `content` in it. -/
def set (table : StateTable β) (key : Assignment) (content : β) :
    Except LayoutError (β × StateTable β) :=
  (table.find key).map fun (index, old) => (old, table.setAt index content)

/-- The table with `change` applied to the cell of a key, and what the cell holds then. -/
def modify (table : StateTable β) (key : Assignment) (change : β → β) :
    Except LayoutError (β × StateTable β) :=
  (table.find key).map fun (index, old) => (change old, table.setAt index (change old))

def fill (table : StateTable β) (content : β) : StateTable β := replicate table.layout content

/-- The contents, in the order of their indices. -/
def values (table : StateTable β) : List β := table.cells.toList

def entries (table : StateTable β) : List (Assignment × β) :=
  table.layout.assignments.zip table.values

end StateTable

end Counsel
