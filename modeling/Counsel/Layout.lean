/-
Layouts: an ordered list of names with their domains, and the index of each joint assignment. The
first name counts most. A layout reads only its own names from an assignment and finds a value at
its first place in the domain.
-/
import Counsel.Assignment
import Counsel.MixedRadix

namespace Counsel

/-- Why a layout or an address in it is refused. -/
inductive LayoutError where
  | duplicateName (name : String)
  | emptyDomain (name : String)
  | missingVariable (name : String)
  | unknownValue (name : String) (value : Value)
  | indexOutOfRange (index size : Nat)
  | tooLarge (names : List String)
  deriving DecidableEq

namespace LayoutError

def message : LayoutError → String
  | .duplicateName name => "duplicate table variable: " ++ name
  | .emptyDomain name => "table variable " ++ name ++ " has an empty domain"
  | .missingVariable name => "assignment is missing table variable " ++ name
  | .unknownValue name value =>
    "value " ++ value.render ++ " is not in the domain of table variable " ++ name
  | .indexOutOfRange index size =>
    "index " ++ toString index ++ " is out of range for table of size " ++ toString size
  | .tooLarge names =>
    "table over " ++ String.intercalate "," names ++ " exceeds the addressable size"

end LayoutError

/-- A name with the values that it ranges over. -/
abbrev Place := String × List Value

namespace Layout

/-- The first fault of a list of places: a name that came before, or a domain without values. -/
def fault? (seen : List String) : List Place → Option LayoutError
  | [] => none
  | (name, domain) :: rest =>
    if name ∈ seen then some (.duplicateName name)
    else if domain = [] then some (.emptyDomain name)
    else fault? (name :: seen) rest

def bases (places : List Place) : List Nat := places.map fun p => p.2.length

end Layout

/-- Distinct names with domains that are not empty, few enough for every index to fit. -/
structure Layout where
  places : List Place
  sound : Layout.fault? [] places = none
  fits : MixedRadix.size (Layout.bases places) < MixedRadix.indexLimit

namespace Layout

/-- The layout of a list of places. -/
def ofPlaces (places : List Place) : Except LayoutError Layout :=
  match h : fault? [] places with
  | some e => .error e
  | none =>
    if k : MixedRadix.size (bases places) < MixedRadix.indexLimit then .ok ⟨places, h, k⟩
    else .error (.tooLarge (places.map (·.1)))

/-- The layout without names, which has one cell. -/
def unit : Layout := ⟨[], rfl, by decide⟩

/-- The names, in order. -/
def names (layout : Layout) : List String := layout.places.map (·.1)

/-- The domains, in the order of their names. -/
def domains (layout : Layout) : List (List Value) := layout.places.map (·.2)

def size (layout : Layout) : Nat := MixedRadix.size (bases layout.places)

def contains (layout : Layout) (name : String) : Bool := layout.names.contains name

/-- The place of an assignment's value in the domain of a name. -/
def position (assignment : Assignment) (place : Place) : Except LayoutError Nat :=
  match assignment.get? place.1 with
  | none => .error (.missingVariable place.1)
  | some value =>
    match place.2.findIdx? (· == value) with
    | none => .error (.unknownValue place.1 value)
    | some i => .ok i

/-- The index of an assignment; names outside the layout do not matter. -/
def indexOf (layout : Layout) (assignment : Assignment) : Except LayoutError Nat := do
  let digits ← layout.places.mapM (position assignment)
  return MixedRadix.encode (bases layout.places) digits

/-- The values at the positions of an index. -/
def entriesAt (layout : Layout) (index : Nat) : List (String × Value) :=
  (layout.places.zip (MixedRadix.decode (bases layout.places) index)).filterMap
    fun ((name, domain), i) => domain[i]?.map (name, ·)

/-- The assignment of an index. -/
def assignmentAt (layout : Layout) (index : Nat) : Except LayoutError Assignment :=
  if index < layout.size then .ok (NameMap.ofList (layout.entriesAt index))
  else .error (.indexOutOfRange index layout.size)

/-- The first `limit` assignments, in the order of their indices. -/
def firstAssignments (layout : Layout) (limit : Nat) : List Assignment :=
  (List.range (min limit layout.size)).map fun i => NameMap.ofList (layout.entriesAt i)

/-- Every assignment, in the order of the indices. -/
def assignments (layout : Layout) : List Assignment := layout.firstAssignments layout.size

/-- The names of both layouts; those of the first one count most. -/
def join (a b : Layout) : Except LayoutError Layout := ofPlaces (a.places ++ b.places)

def restrict (layout : Layout) (assignment : Assignment) : Assignment :=
  NameMap.restrict assignment layout.contains

end Layout

end Counsel
