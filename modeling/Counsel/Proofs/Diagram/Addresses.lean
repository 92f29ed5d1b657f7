/-
Addresses of the joint values of some variables. Positions in range, named values and filled slots match
the indices below the size one to one, and a scope and a layout of the same variables number them alike:
they have the same indices and the same faults (`Scope.matches_of_places`). An index is counted up
position by position (`MixedRadix.tally`), and no count on the way exceeds the last index
(`MixedRadix.tally_lt`). Any distinct variables of a diagram have both a scope and a layout, or are too
many for either (`Declaration.addresses_of_build`).
-/
import Counsel.Oracle
import Counsel.Proofs.Diagram.Accepted
import Counsel.Proofs.Inference.Choice
import Counsel.Proofs.Listing

namespace Counsel

open Outcome

/-! ## Counting up an index -/

namespace MixedRadix

variable {ι ε : Type} {read : ι → Except ε Nat} {base : ι → Nat}

/-- The counts that an index goes through while positions are read one after the other, from a first
count on, and where it ends. -/
def tally (read : ι → Except ε Nat) (base : ι → Nat) (count : Nat) : List ι → List Nat × Except ε Nat
  | [] => ([count], .ok count)
  | place :: rest =>
    match read place with
    | .error e => ([count], .error e)
    | .ok digit =>
      let (later, last) := tally read base (count + digit * size (rest.map base)) rest
      (count :: later, last)

/-- The last count is the index of the positions, unless one of them is refused. -/
theorem tally_snd (count : Nat) (places : List ι) : (tally read base count places).2 =
    (places.mapM read).map fun digits => count + encode (places.map base) digits := by
  induction places generalizing count with
  | nil => rfl
  | cons place rest ih =>
    rw [tally, List.mapM_cons]
    rcases read place with e | digit
    · rfl
    · simp only [ih, ok_bind, List.map_cons]
      rcases rest.mapM read with e | digits
      · rfl
      · exact congrArg Except.ok (Nat.add_assoc ..)

/-- Positions in range are never counted beyond the last index. -/
theorem tally_lt {places : List ι} {count : Nat} (pos : ∀ place ∈ places, 0 < base place)
    (range : ∀ place ∈ places, ∀ digit, read place = .ok digit → digit < base place) :
    ∀ i ∈ (tally read base count places).1, i < count + size (places.map base) := by
  induction places generalizing count with
  | nil => simp [tally, size]
  | cons place rest ih =>
    have sizes : 0 < size ((place :: rest).map base) := size_pos (List.forall_mem_map.2 pos)
    rw [List.forall_mem_cons] at pos
    rw [tally]
    split
    next => simpa using sizes
    next digit found =>
      have digits := Nat.mul_le_mul_right (size (rest.map base))
        (range place List.mem_cons_self digit found)
      rw [Nat.succ_mul] at digits
      intro i hi
      rw [List.map_cons, size] at sizes ⊢
      rcases List.mem_cons.1 hi with rfl | hi
      · omega
      · have := ih pos.2 (fun other ho => range other (List.mem_cons_of_mem _ ho)) i hi
        omega

/-- Positions that are read one after the other are counted to an index, or refused, and no count on the
way exceeds the last index below a size. -/
def Tallies (read : ι → Except ε Nat) (base : ι → Nat) (places : List ι) (bound : Nat)
    (index : Except ε Nat) : Prop :=
  (tally read base 0 places).2 = index ∧ ∀ i ∈ (tally read base 0 places).1, i ≤ bound - 1

theorem tallies_of_range {places : List ι} (pos : ∀ place ∈ places, 0 < base place)
    (range : ∀ place ∈ places, ∀ digit, read place = .ok digit → digit < base place) :
    Tallies read base places (size (places.map base))
      ((places.mapM read).map (encode (places.map base))) := by
  refine ⟨?_, fun i hi => ?_⟩
  · rw [tally_snd]
    simp only [Nat.zero_add]
  · have := tally_lt pos range i hi
    omega

end MixedRadix

namespace Scope

variable {scope : Scope} {slots : Slots} {i : Nat}

/-! ## Positions -/

theorem positionsAt_eq_some {positions : List Nat} : scope.positionsAt i = some positions ↔
    i < scope.size ∧ MixedRadix.decode (bases scope.vars) i = positions := by
  rw [positionsAt]
  split
  next lt => simp [lt]
  next out => simp [out]

theorem indexOfPositions_eq_some {positions : List Nat} : scope.indexOfPositions positions = some i ↔
    List.Forall₂ (fun v p => p < v.card) scope.vars positions ∧
      MixedRadix.encode (bases scope.vars) positions = i := by
  rw [indexOfPositions, ← Scope.inRange_bases]
  split
  next range => simp [range]
  next out => simp [out]

/-- A position that is in the domain of its variable. -/
def positionIn (place : Variable × Nat) : Except Unit Nat :=
  if place.2 < place.1.card then .ok place.2 else .error ()

theorem positionIn_eq_ok {place : Variable × Nat} {p : Nat} :
    positionIn place = .ok p ↔ place.2 < place.1.card ∧ place.2 = p := by
  rw [positionIn]
  split
  next lt => simp [lt]
  next out => simp [out]

/-- Positions are read one by one if each is in its domain. -/
theorem mapM_positionIn {vars : List Variable} {positions : List Nat}
    (length : vars.length = positions.length) : ((vars.zip positions).mapM positionIn).toOption =
      if MixedRadix.InRange (bases vars) positions then some positions else none := by
  split
  next range =>
    obtain ⟨-, within⟩ := List.forall₂_iff_zip.1 (Scope.inRange_bases.1 range)
    rw [mapM_eq_ok_map (g := Prod.snd) fun place hp => positionIn_eq_ok.2 ⟨within hp, rfl⟩,
      List.map_snd_zip length.ge]
    rfl
  next out =>
    rcases read : (vars.zip positions).mapM positionIn with e | digits
    · rfl
    · refine absurd (Scope.inRange_bases.2 (List.forall₂_iff_zip.2 ⟨length, fun mem => ?_⟩)) out
      obtain ⟨_, -, found⟩ := exists_of_mapM_eq_ok read mem
      exact (positionIn_eq_ok.1 found).1

/-- Positions have an index exactly if they are those of the index. -/
theorem indexOfPositions_iff {positions : List Nat} :
    scope.indexOfPositions positions = some i ↔ scope.positionsAt i = some positions := by
  rw [indexOfPositions_eq_some, positionsAt_eq_some]
  constructor
  · rintro ⟨range, rfl⟩
    exact ⟨MixedRadix.encode_lt (Scope.inRange_bases.2 range),
      MixedRadix.decode_encode (Scope.inRange_bases.2 range)⟩
  · rintro ⟨lt, rfl⟩
    exact ⟨positions_forall₂ lt, MixedRadix.encode_decode lt⟩

/-- Slots that hold the positions of an index, and nothing else, are filled by it. -/
theorem forall₂_fill {positions : List Nat} (at_i : scope.positionsAt i = some positions) (slots : Slots) :
    List.Forall₂ (fun v p => (slots.setAll (scope.entriesAt i)).get? v.id = some p) scope.vars positions := by
  obtain ⟨lt, rfl⟩ := positionsAt_eq_some.1 at_i
  refine List.forall₂_iff_zip.2 ⟨(positions_forall₂ lt).length_eq, fun {v p} mem => ?_⟩
  refine Slots.get?_setAll_of_mem _ (ids_entriesAt lt ▸ scope.nodup_ids) ?_
  rw [entriesAt, ids, List.zip_map_left]
  exact List.mem_map_of_mem (f := Prod.map Variable.id id) mem

/-- Slots have an index exactly if filling it in changes nothing. -/
theorem indexOfSlots_iff (within : slots.Within scope.vars) :
    scope.indexOfSlots slots = .ok i ↔ scope.fillSlots i slots = .ok slots := by
  rw [indexOfSlots_eq_ok]
  constructor
  · rintro ⟨digits, held, rfl⟩
    have range : List.Forall₂ (fun v p => p < v.card) scope.vars digits := by
      refine List.forall₂_iff_zip.2 ⟨held.length_eq, fun {v p} mem => ?_⟩
      exact within v (List.of_mem_zip mem).1 p ((List.forall₂_iff_zip.1 held).2 mem)
    have inside := Scope.inRange_bases.2 range
    rw [fillSlots_of_lt (MixedRadix.encode_lt inside), entriesAt, MixedRadix.decode_encode inside,
      Slots.setAll_eq_self]
    intro e mem
    rw [ids, List.zip_map_left] at mem
    obtain ⟨⟨v, p⟩, there, rfl⟩ := List.mem_map.1 mem
    exact (List.forall₂_iff_zip.1 held).2 there
  · intro unchanged
    by_cases lt : i < scope.size
    · rw [fillSlots_of_lt lt, Except.ok.injEq] at unchanged
      have held := forall₂_fill (positionsAt_eq_some.2 ⟨lt, rfl⟩) slots
      rw [unchanged] at held
      exact ⟨_, held, MixedRadix.encode_decode lt⟩
    · rw [fillSlots_of_not_lt lt] at unchanged
      cases unchanged

end Scope

/-! ## Named values -/

/-- The fault in a scope that a fault in a layout stands for. -/
def LayoutError.inScope : LayoutError → ModelError
  | .duplicateName name => .repeatedInScope name
  | .emptyDomain name => .emptyDomain name
  | .missingVariable name => .missingAssignment name
  | .unknownValue name value => .unknownValue name value
  | .indexOutOfRange index size => .indexOutOfRange index size
  | .tooLarge names => .scopeTooLarge names

namespace Layout

variable {layout : Layout} {a : Assignment} {i : Nat}

/-- Where no domain repeats a value, an assignment has an index exactly if what the layout leaves of it is
the assignment of the index. -/
theorem indexOf_iff (distinct : layout.Distinct) :
    layout.indexOf a = .ok i ↔ layout.assignmentAt i = .ok (layout.restrict a) := by
  rw [← indexOf_congr (agree_restrict a)]
  constructor
  · intro read
    have there := assignmentAt_of_lt (indexOf_lt read)
    rw [there, Except.ok.injEq]
    exact (covers_of_mem_assignments (mem_assignments_of_eq there)).eq_of_indexOf (covers_restrict a)
      (indexOf_assignmentAt distinct (indexOf_lt read)) read
  · intro made
    exact indexOf_assignmentAt_iff.2 distinct i (assignmentAt_eq_ok.1 made).1 _ made

end Layout

namespace Scope

/-- The indices of a scope and of a layout are counted up place by place, also where one of the places is
refused, without exceeding the last index. -/
structure Counted (scope : Scope) (layout : Layout) : Prop where
  positions : ∀ positions, scope.vars.length = positions.length → ∃ index,
    index.toOption = scope.indexOfPositions positions ∧
    MixedRadix.Tallies positionIn (·.1.card) (scope.vars.zip positions) scope.size index
  slots : ∀ slots : Slots, slots.Within scope.vars →
    MixedRadix.Tallies (heldPosition slots) Variable.card scope.vars scope.size (scope.indexOfSlots slots)
  named : ∀ a, MixedRadix.Tallies (namedPosition a) Variable.card scope.vars scope.size (scope.indexOf a)
  laid : ∀ a, MixedRadix.Tallies (Layout.position a) (·.2.length) layout.places layout.size
    (layout.indexOf a)

/-- A scope and a layout that address the joint values of some variables alike. -/
structure Matches (scope : Scope) (layout : Layout) : Prop where
  sizes : layout.size = scope.size
  /-- Positions have an index if they are in range, … -/
  indexed : ∀ positions, (∃ i, scope.indexOfPositions positions = some i) ↔
    List.Forall₂ (fun v p => p < v.card) scope.vars positions
  /-- … and an index has positions if it is below the size; they match one to one. -/
  placed : ∀ i, (∃ positions, scope.positionsAt i = some positions) ↔ i < scope.size
  positions : ∀ positions i, scope.indexOfPositions positions = some i ↔
    scope.positionsAt i = some positions
  /-- The assignment of an index has the values at its positions and no others. -/
  listed : ∀ i positions, scope.positionsAt i = some positions → ∃ a, scope.assignmentAt i = .ok a ∧
    layout.restrict a = a ∧ List.Forall₂ (fun v p => ∃ value, v.domain[p]? = some value ∧
      a.get? v.name = some value) scope.vars positions
  /-- An assignment has an index if what counts of it is the assignment of the index. -/
  named : ∀ a i, scope.indexOf a = .ok i ↔ scope.assignmentAt i = .ok (layout.restrict a)
  /-- Filling in an index sets its positions and leaves the other variables as they are, … -/
  filled : ∀ i positions, scope.positionsAt i = some positions → ∀ slots : Slots, ∃ filled,
    scope.fillSlots i slots = .ok filled ∧ scope.indexOfSlots filled = .ok i ∧
    List.Forall₂ (fun v p => filled.get? v.id = some p) scope.vars positions ∧
    ∀ id ∉ scope.ids, filled.get? id = slots.get? id
  /-- … and slots with positions in range have an index if filling it in changes nothing. -/
  held : ∀ slots : Slots, slots.Within scope.vars →
    ∀ i, scope.indexOfSlots slots = .ok i ↔ scope.fillSlots i slots = .ok slots
  /-- The layout has the same indices, assignments and faults. -/
  alike : (∀ a, scope.indexOf a = (layout.indexOf a).mapError LayoutError.inScope) ∧
    ∀ i, scope.assignmentAt i = (layout.assignmentAt i).mapError LayoutError.inScope

variable {scope : Scope} {layout : Layout}

theorem namedPosition_eq (a : Assignment) (v : Variable) : namedPosition a v =
    (Layout.position a (v.name, v.domain)).mapError LayoutError.inScope := by
  rw [namedPosition, Layout.position]
  rcases a.get? v.name with _ | value
  · rfl
  · simp only [Variable.position?]
    rcases v.domain.findIdx? (· == value) with _ | p <;> rfl

section Places

variable (places : layout.places = scope.vars.map fun v => (v.name, v.domain))
include places

theorem bases_places : Layout.bases layout.places = bases scope.vars := by
  rw [places, Layout.bases, List.map_map]
  rfl

theorem size_layout : layout.size = scope.size := by rw [Layout.size, bases_places places, size]

theorem indexOf_eq (a : Assignment) :
    scope.indexOf a = (layout.indexOf a).mapError LayoutError.inScope := by
  have read : scope.vars.mapM (namedPosition a) =
      (layout.places.mapM (Layout.position a)).mapError LayoutError.inScope := by
    rw [places, List.mapM_map, ← mapM_mapError]
    exact mapM_congr fun v _ => namedPosition_eq a v
  rw [indexOf, Layout.indexOf, read, bases_places places]
  rcases layout.places.mapM (Layout.position a) with e | digits <;> rfl

theorem assignmentAt_eq (i : Nat) :
    scope.assignmentAt i = (layout.assignmentAt i).mapError LayoutError.inScope := by
  rw [assignmentAt, Layout.assignmentAt, size_layout places]
  by_cases lt : i < scope.size
  · rw [positionsAt_eq_some.2 ⟨lt, rfl⟩, if_pos lt, Layout.entriesAt, bases_places places, places,
      List.zip_map_left, List.filterMap_map]
    rfl
  · rw [positionsAt, if_neg lt, if_neg lt]
    rfl

/-- A scope and a layout over the same variables address their joint values alike. -/
theorem matches_of_places (distinct : ∀ v ∈ scope.vars, v.domain.Nodup) : scope.Matches layout := by
  have once : layout.Distinct := by
    intro place hp
    rw [places] at hp
    obtain ⟨v, hv, rfl⟩ := List.mem_map.1 hp
    exact distinct v hv
  have named : ∀ a i, scope.indexOf a = .ok i ↔ scope.assignmentAt i = .ok (layout.restrict a) := by
    intro a i
    rw [indexOf_eq places, assignmentAt_eq places, mapError_eq_ok, mapError_eq_ok,
      Layout.indexOf_iff once]
  refine ⟨size_layout places, fun positions => ?_, fun i => ?_, fun _ _ => indexOfPositions_iff,
    fun i positions at_i => ?_, named, fun i positions at_i slots => ?_,
    fun _ within _ => indexOfSlots_iff within, indexOf_eq places, assignmentAt_eq places⟩
  · simp only [indexOfPositions_eq_some, exists_and_left, exists_eq', and_true]
  · simp only [positionsAt_eq_some, exists_and_left, exists_eq', and_true]
  · obtain ⟨lt, rfl⟩ := positionsAt_eq_some.1 at_i
    have made := Layout.assignmentAt_of_lt (size_layout places ▸ lt)
    refine ⟨_, ?_, (Layout.covers_of_mem_assignments (Layout.mem_assignments_of_eq made)).restrict_eq, ?_⟩
    · rw [assignmentAt_eq places, made]
      rfl
    · have held := layout.positions_of_index i
      rwa [bases_places places, places, List.forall₂_map_left_iff] at held
  · have held := forall₂_fill at_i slots
    obtain ⟨lt, rfl⟩ := positionsAt_eq_some.1 at_i
    refine ⟨_, fillSlots_of_lt lt slots, indexOfSlots_eq_ok.2 ⟨_, held, MixedRadix.encode_decode lt⟩, held,
      fun id free => Slots.get?_setAll_of_notMem slots ?_⟩
    rwa [ids_entriesAt lt]

end Places

/-- The indices of a scope and of a layout are counted up within their sizes. -/
theorem counted (pos : ∀ v ∈ scope.vars, 0 < v.card) (layout : Layout) : scope.Counted layout := by
  refine ⟨fun positions length => ?_, fun slots within => ?_, fun a => ?_, fun a => ?_⟩
  · have cards : (scope.vars.zip positions).map (·.1.card) = bases scope.vars := by
      rw [bases, ← List.map_fst_zip length.le, List.map_map, List.map_fst_zip length.le]
      rfl
    have tallies : MixedRadix.Tallies positionIn (·.1.card) (scope.vars.zip positions) _ _ :=
      MixedRadix.tallies_of_range (fun place hp => pos _ (List.of_mem_zip hp).1) fun place _ digit found =>
        (positionIn_eq_ok.1 found).2 ▸ (positionIn_eq_ok.1 found).1
    rw [cards] at tallies
    refine ⟨_, ?_, tallies⟩
    rw [toOption_map, mapM_positionIn length, indexOfPositions]
    split <;> rfl
  · exact MixedRadix.tallies_of_range pos fun v hv p found => within v hv p (heldPosition_eq_ok.1 found)
  · exact MixedRadix.tallies_of_range pos fun v hv p found => namedPosition_lt found
  · exact MixedRadix.tallies_of_range (fun place hp => List.length_pos_iff.2 (layout.domain_ne_nil hp))
      fun _ _ _ => Layout.position_lt

end Scope

namespace Declaration

variable {α : Type} [Scalar α]

/-- Any distinct variables of a diagram have a scope and a layout of one size, or their joint values are
too many for both. In a scope positions, named values and filled slots match the indices one to one, the
layout has the same indices and the same faults, and no index on the way exceeds the last. -/
theorem addresses_of_build {decl : Declaration α} {d : Diagram α} (built : decl.build = .ok d)
    {vars : List Variable} (distinct : vars.Nodup) (sub : ∀ v ∈ vars, v ∈ d.vars) :
    ((vars.map Variable.card).prod < MixedRadix.indexLimit ∧ ∃ scope layout,
      Scope.ofVars vars = .ok scope ∧ Layout.ofVariables vars = .ok layout ∧
      scope.vars = vars ∧ scope.size = (vars.map Variable.card).prod ∧
      scope.Matches layout ∧ scope.Counted layout) ∨
    (MixedRadix.indexLimit ≤ (vars.map Variable.card).prod ∧
      Scope.ofVars vars = .error (.scopeTooLarge (vars.map (·.name))) ∧
      Layout.ofVariables vars = .error (.tooLarge (vars.map (·.name)))) := by
  have h := wellFormed_of_build built
  have ids : Scope.repeated? [] vars = none :=
    Scope.repeated?_eq_none.2 ⟨distinct.map_on fun u hu v hv => h.inj u (sub u hu) v (sub v hv), by simp⟩
  have places : Layout.fault? [] (vars.map fun v => (v.name, v.domain)) = none := by
    refine Layout.fault?_eq_none.2 ⟨?_, by simp, List.forall_mem_map.2 fun v hv => ?_⟩
    · rw [List.map_map]
      exact h.nodup_names distinct sub
    · exact (h.domains v (sub v hv)).1
  have cards : MixedRadix.size (Layout.bases (vars.map fun v => (v.name, v.domain))) =
      (vars.map Variable.card).prod := by
    rw [MixedRadix.size_eq_prod, Layout.bases, List.map_map]
    rfl
  by_cases fits : (vars.map Variable.card).prod < MixedRadix.indexLimit
  · have inside : MixedRadix.size (Scope.bases vars) < MixedRadix.indexLimit := by
      rwa [MixedRadix.size_eq_prod]
    refine .inl ⟨fits, _, _, Scope.ofVars_of_fits ids inside,
      Layout.ofPlaces_of_fits places (cards ▸ fits), rfl, MixedRadix.size_eq_prod _, ?_, ?_⟩
    · exact Scope.matches_of_places rfl fun v hv => (h.domains v (sub v hv)).2
    · exact Scope.counted (fun v hv => h.card_pos (sub v hv)) _
  · have outside : ¬ MixedRadix.size (Scope.bases vars) < MixedRadix.indexLimit := by
      rwa [MixedRadix.size_eq_prod]
    refine .inr ⟨Nat.le_of_not_lt fits, Scope.ofVars_of_not_fits ids outside, ?_⟩
    rw [Layout.ofVariables, Layout.ofPlaces_of_not_fits places (cards ▸ fits), List.map_map]
    rfl

/-- The sixth joint value is rain after a sunny forecast with an umbrella; without a forecast there is
none. -/
theorem addresses_umbrella : ∃ scope layout, Scope.ofVars Diagram.umbrellaDiagram.vars = .ok scope ∧
    Layout.ofVariables Diagram.umbrellaDiagram.vars = .ok layout ∧
    scope.positionsAt 5 = some [1, 0, 1] ∧
    layout.indexOf (NameMap.ofList [("Weather", .text "rain")]) = .error (.missingVariable "Forecast") := by
  have distinct : Diagram.umbrellaDiagram.vars.Nodup := by decide +kernel
  obtain ⟨-, scope, layout, formed, laid, vars, -, same, -⟩ | ⟨large, -⟩ :=
    addresses_of_build Diagram.build_umbrella distinct fun _ => id
  · refine ⟨scope, layout, formed, laid, (same.positions _ _).1 ?_, ?_⟩
    · rw [Scope.indexOfPositions, vars]
      decide +kernel
    · have missing : scope.indexOf (NameMap.ofList [("Weather", .text "rain")]) =
          .error (.missingAssignment "Forecast") := by
        rw [Scope.indexOf, vars]
        decide +kernel
      rw [same.alike.1] at missing
      rcases read : layout.indexOf (NameMap.ofList [("Weather", .text "rain")]) with e | i
      · rw [read] at missing
        cases e <;> cases missing
        rfl
      · rw [read] at missing
        cases missing
  · exact absurd large (by decide +kernel)

end Declaration

end Counsel
