/-
Layouts as addresses. Two assignments have the same index in a layout exactly when they agree on
its names (`Layout.agree_iff`), and where no domain repeats a value the index of an assignment that
the layout lists is its place in the list (`Layout.indexOf_assignmentAt`).
-/
import Counsel.Proofs.NameMap
import Counsel.Proofs.Outcome
import Counsel.StateTable

namespace Counsel

open Outcome

namespace Layout

/-! ## Names and domains -/

theorem fault?_eq_none {seen : List String} {places : List Place} :
    fault? seen places = none ↔ (places.map (·.1)).Nodup ∧ (∀ p ∈ places, p.1 ∉ seen) ∧
      ∀ p ∈ places, p.2 ≠ [] := by
  induction places generalizing seen with
  | nil => simp [fault?]
  | cons place rest ih =>
    obtain ⟨name, domain⟩ := place
    rw [fault?]
    split
    next old => simp [old]
    next new =>
      split
      next empty => simp [empty]
      next full =>
        rw [ih]
        simp only [List.map_cons, List.nodup_cons, List.mem_cons, List.mem_map, not_or,
          forall_eq_or_imp, full, new, not_false_eq_true, ne_eq, true_and]
        constructor
        · rintro ⟨nodup, fresh, filled⟩
          exact ⟨⟨fun ⟨p, hp, same⟩ => (fresh p hp).1 same, nodup⟩,
            fun p hp => (fresh p hp).2, filled⟩
        · rintro ⟨⟨other, nodup⟩, fresh, filled⟩
          exact ⟨nodup, fun p hp => ⟨fun same => other ⟨p, hp, same⟩, fresh p hp⟩, filled⟩

theorem nodup_names (layout : Layout) : layout.names.Nodup := (fault?_eq_none.1 layout.sound).1

theorem domain_ne_nil (layout : Layout) {p : Place} (hp : p ∈ layout.places) : p.2 ≠ [] :=
  (fault?_eq_none.1 layout.sound).2.2 p hp

theorem base_pos (layout : Layout) : ∀ b ∈ bases layout.places, 0 < b := by
  intro b hb
  obtain ⟨p, hp, rfl⟩ := List.mem_map.1 hb
  exact List.length_pos_iff.2 (layout.domain_ne_nil hp)

theorem size_pos (layout : Layout) : 0 < layout.size := MixedRadix.size_pos layout.base_pos

theorem ofPlaces_eq_ok {places : List Place} {layout : Layout} (h : ofPlaces places = .ok layout) :
    layout.places = places := by
  unfold ofPlaces at h
  split at h
  next => cases h
  next =>
    split at h
    next => cases h; rfl
    next => cases h

theorem ofPlaces_of_fits {places : List Place} (sound : fault? [] places = none)
    (fits : MixedRadix.size (bases places) < MixedRadix.indexLimit) :
    ofPlaces places = .ok ⟨places, sound, fits⟩ := by
  unfold ofPlaces
  split
  next faulty => exact absurd (faulty.symm.trans sound) (by simp)
  next => exact dif_pos fits

theorem ofPlaces_of_not_fits {places : List Place} (sound : fault? [] places = none)
    (large : ¬ MixedRadix.size (bases places) < MixedRadix.indexLimit) :
    ofPlaces places = .error (.tooLarge (places.map (·.1))) := by
  unfold ofPlaces
  split
  next faulty => exact absurd (faulty.symm.trans sound) (by simp)
  next => exact dif_neg large

theorem places_of_join {a b joint : Layout} (h : a.join b = .ok joint) :
    joint.places = a.places ++ b.places := ofPlaces_eq_ok h

theorem size_of_join {a b joint : Layout} (h : a.join b = .ok joint) :
    joint.size = a.size * b.size := by
  rw [size, places_of_join h, bases, List.map_append, MixedRadix.size_append]
  rfl

/-! ## Positions -/

variable {layout : Layout} {s t : Assignment}

theorem position_eq_ok {place : Place} {i : Nat} :
    position s place = .ok i ↔
      ∃ value, s.get? place.1 = some value ∧ place.2.findIdx? (· == value) = some i := by
  unfold position
  rcases s.get? place.1 with _ | value
  · simp
  · rcases hi : place.2.findIdx? (· == value) with _ | j <;> simp [hi]

theorem getElem?_of_findIdx? {values : List Value} {i : Nat} {value : Value}
    (found : values.findIdx? (· == value) = some i) : values[i]? = some value := by
  obtain ⟨lt, same, -⟩ := List.findIdx?_eq_some_iff_getElem.1 found
  exact List.getElem?_eq_some_iff.2 ⟨lt, eq_of_beq same⟩

/-- A position holds the value that is read there. -/
theorem value_of_position {place : Place} {i : Nat} (h : position s place = .ok i) :
    ∃ value, s.get? place.1 = some value ∧ place.2[i]? = some value := by
  obtain ⟨value, known, found⟩ := position_eq_ok.1 h
  exact ⟨value, known, getElem?_of_findIdx? found⟩

theorem position_lt {place : Place} {i : Nat} (h : position s place = .ok i) :
    i < place.2.length := by
  obtain ⟨_, -, found⟩ := value_of_position h
  exact (List.getElem?_eq_some_iff.1 found).1

theorem position_congr {place : Place} (h : s.get? place.1 = t.get? place.1) :
    position s place = position t place := by
  unfold position
  rw [h]

/-- A value of the domain is found somewhere. -/
theorem exists_position {place : Place} {value : Value} (known : s.get? place.1 = some value)
    (mem : value ∈ place.2) : ∃ i, position s place = .ok i := by
  have found : (place.2.findIdx? (· == value)).isSome = true := by
    rw [List.findIdx?_isSome, List.any_eq_true]
    exact ⟨value, mem, beq_self_eq_true value⟩
  obtain ⟨i, hi⟩ := Option.isSome_iff_exists.1 found
  exact ⟨i, position_eq_ok.2 ⟨value, known, hi⟩⟩

/-- Where no value is repeated, a value is found at its own place. -/
theorem findIdx?_of_getElem? {domain : List Value} (distinct : domain.Nodup) {i : Nat}
    {value : Value} (held : domain[i]? = some value) :
    domain.findIdx? (· == value) = some i := by
  obtain ⟨lt, same⟩ := List.getElem?_eq_some_iff.1 held
  refine List.findIdx?_eq_some_iff_getElem.2 ⟨lt, by simp [same], ?_⟩
  intro j before found
  have twin : domain[j] = domain[i] := by rw [same]; exact eq_of_beq found
  exact absurd ((List.Nodup.getElem_inj_iff distinct).1 twin) (Nat.ne_of_lt before)

/-- Where no value is repeated, a value is read at its own place. -/
theorem position_of_getElem? {place : Place} {i : Nat} {value : Value} (distinct : place.2.Nodup)
    (known : s.get? place.1 = some value) (held : place.2[i]? = some value) :
    position s place = .ok i :=
  position_eq_ok.2 ⟨value, known, findIdx?_of_getElem? distinct held⟩

/-! ## Indices -/

theorem indexOf_eq_ok {index : Nat} :
    layout.indexOf s = .ok index ↔ ∃ digits,
      List.Forall₂ (fun place digit => position s place = .ok digit) layout.places digits ∧
        MixedRadix.encode (bases layout.places) digits = index := by
  rw [indexOf, bind_eq_ok]
  simp only [mapM_eq_ok, pure_eq_ok, Except.ok.injEq]

/-- An assignment has an index: under each name of the layout it has a value of the domain. -/
def Reads (layout : Layout) (s : Assignment) : Prop := ∃ index, layout.indexOf s = .ok index

theorem reads_iff :
    layout.Reads s ↔ ∀ place ∈ layout.places, ∃ value ∈ place.2, s.get? place.1 = some value := by
  constructor
  · rintro ⟨_, h⟩ place hp
    obtain ⟨digits, steps, -⟩ := indexOf_eq_ok.1 h
    obtain ⟨_, -, read⟩ := forall₂_mem steps hp
    obtain ⟨value, known, held⟩ := value_of_position read
    exact ⟨value, List.mem_of_getElem? held, known⟩
  · intro h
    obtain ⟨digits, read⟩ := exists_mapM fun place hp =>
      (h place hp).elim fun _ k => exists_position k.2 k.1
    exact ⟨_, indexOf_eq_ok.2 ⟨digits, mapM_eq_ok.1 read, rfl⟩⟩

theorem inRange_of_positions {places : List Place} {digits : List Nat}
    (h : List.Forall₂ (fun place digit => position s place = .ok digit) places digits) :
    MixedRadix.InRange (bases places) digits := by
  induction h with
  | nil => trivial
  | cons head _ ih => exact ⟨position_lt head, ih⟩

theorem indexOf_lt {index : Nat} (h : layout.indexOf s = .ok index) : index < layout.size := by
  obtain ⟨digits, steps, rfl⟩ := indexOf_eq_ok.1 h
  exact MixedRadix.encode_lt (inRange_of_positions steps)

/-- Two assignments agree on the names of a layout. -/
def Agree (layout : Layout) (s t : Assignment) : Prop := ∀ name ∈ layout.names, s.get? name = t.get? name

instance (layout : Layout) (s t : Assignment) : Decidable (layout.Agree s t) :=
  inferInstanceAs (Decidable (∀ name ∈ layout.names, s.get? name = t.get? name))

/-- A layout reads nothing but its own names. -/
theorem indexOf_congr (h : layout.Agree s t) : layout.indexOf s = layout.indexOf t := by
  unfold indexOf
  rw [mapM_congr fun place hp => position_congr (h place.1 (List.mem_map_of_mem hp))]

/-- Assignments that hold the values at the same positions agree. -/
theorem agree_of_positions {digits : List Nat}
    (hs : List.Forall₂ (fun place digit => ∃ value, place.2[digit]? = some value ∧
      s.get? place.1 = some value) layout.places digits)
    (ht : List.Forall₂ (fun place digit => ∃ value, place.2[digit]? = some value ∧
      t.get? place.1 = some value) layout.places digits) : layout.Agree s t := by
  intro name hn
  obtain ⟨place, hp, rfl⟩ := List.mem_map.1 hn
  obtain ⟨i, hi⟩ := List.mem_iff_getElem?.1 hp
  obtain ⟨digit, hd, value, held, known⟩ := forall₂_getElem? hs hi
  obtain ⟨digit', hd', value', held', known'⟩ := forall₂_getElem? ht hi
  obtain rfl : digit = digit' := Option.some.inj (hd.symm.trans hd')
  rw [known, known', ← held, ← held']

/-- Assignments of one index agree on the names of the layout. -/
theorem agree_of_indexOf {index : Nat} (hs : layout.indexOf s = .ok index)
    (ht : layout.indexOf t = .ok index) : layout.Agree s t := by
  obtain ⟨digits, steps, e⟩ := indexOf_eq_ok.1 hs
  obtain ⟨digits', steps', e'⟩ := indexOf_eq_ok.1 ht
  obtain rfl : digits = digits' := by
    rw [← MixedRadix.decode_encode (inRange_of_positions steps),
      ← MixedRadix.decode_encode (inRange_of_positions steps'), e, e']
  refine agree_of_positions (steps.imp fun _ _ read => ?_) (steps'.imp fun _ _ read => ?_) <;>
    exact (value_of_position read).imp fun _ k => k.symm

/-- Two assignments have the same index exactly when they agree on the names of the layout. -/
theorem agree_iff {i j : Nat} (hs : layout.indexOf s = .ok i) (ht : layout.indexOf t = .ok j) :
    layout.Agree s t ↔ i = j := by
  constructor
  · intro h
    rw [indexOf_congr h, ht] at hs
    exact (Except.ok.inj hs).symm
  · rintro rfl
    exact agree_of_indexOf hs ht

/-! ## The assignments of a layout -/

/-- No domain of a layout repeats a value. -/
def Distinct (layout : Layout) : Prop := ∀ place ∈ layout.places, place.2.Nodup

instance (layout : Layout) : Decidable layout.Distinct :=
  inferInstanceAs (Decidable (∀ place ∈ layout.places, place.2.Nodup))

/-- The named values at some positions of places. -/
def entriesOf (places : List Place) (digits : List Nat) : List (String × Value) :=
  (places.zip digits).filterMap fun ((name, domain), i) => domain[i]?.map (name, ·)

theorem entriesAt_eq (layout : Layout) (index : Nat) :
    layout.entriesAt index =
      entriesOf layout.places (MixedRadix.decode (bases layout.places) index) := rfl

theorem entriesOf_cons {place : Place} {places : List Place} {digit : Nat} {digits : List Nat}
    (h : digit < place.2.length) :
    entriesOf (place :: places) (digit :: digits) =
      (place.1, place.2[digit]) :: entriesOf places digits := by
  simp [entriesOf, h]

theorem names_entriesOf {places : List Place} {digits : List Nat}
    (h : MixedRadix.InRange (bases places) digits) :
    (entriesOf places digits).map (·.1) = places.map (·.1) := by
  induction places generalizing digits with
  | nil => cases digits <;> rfl
  | cons place places ih =>
    cases digits with
    | nil => exact absurd h id
    | cons digit digits => rw [entriesOf_cons h.1, List.map_cons, List.map_cons, ih h.2]

theorem entriesOf_forall₂ {places : List Place} {digits : List Nat}
    (h : MixedRadix.InRange (bases places) digits) :
    List.Forall₂ (fun place digit => ∃ value, place.2[digit]? = some value ∧
      (place.1, value) ∈ entriesOf places digits) places digits := by
  induction places generalizing digits with
  | nil => cases digits with
    | nil => exact .nil
    | cons => exact absurd h id
  | cons place places ih =>
    cases digits with
    | nil => exact absurd h id
    | cons digit digits =>
      rw [entriesOf_cons h.1]
      refine .cons ⟨_, List.getElem?_eq_getElem h.1, List.mem_cons_self⟩ ((ih h.2).imp ?_)
      rintro _ _ ⟨value, held, mem⟩
      exact ⟨value, held, List.mem_cons_of_mem _ mem⟩

/-- The positions that an index stands for are those at which its assignment is read. -/
theorem positions_of_index (layout : Layout) (index : Nat) :
    List.Forall₂ (fun place digit => ∃ value, place.2[digit]? = some value ∧
        (NameMap.ofList (layout.entriesAt index)).get? place.1 = some value) layout.places
      (MixedRadix.decode (bases layout.places) index) := by
  have inRange := MixedRadix.decode_inRange layout.base_pos index
  have nodup : ((layout.entriesAt index).map (·.1)).Nodup := by
    rw [entriesAt_eq, names_entriesOf inRange]
    exact layout.nodup_names
  refine (entriesOf_forall₂ inRange).imp ?_
  rintro _ _ ⟨value, held, mem⟩
  exact ⟨value, held, NameMap.get?_ofList nodup mem⟩

/-- Where no domain repeats a value, the assignment of an index has that index. -/
theorem indexOf_assignmentAt (distinct : layout.Distinct) {index : Nat} (h : index < layout.size) :
    layout.indexOf (NameMap.ofList (layout.entriesAt index)) = .ok index := by
  refine indexOf_eq_ok.2 ⟨_, ?_, MixedRadix.encode_decode h⟩
  have read := layout.positions_of_index index
  rw [List.forall₂_iff_get] at read ⊢
  refine ⟨read.1, fun i hi hd => ?_⟩
  obtain ⟨value, held, known⟩ := read.2 i hi hd
  exact position_of_getElem? (distinct _ (List.get_mem _ _)) known held

theorem assignmentAt_of_lt {index : Nat} (h : index < layout.size) :
    layout.assignmentAt index = .ok (NameMap.ofList (layout.entriesAt index)) := if_pos h

theorem assignments_eq (layout : Layout) :
    layout.assignments =
      (List.range layout.size).map fun i => NameMap.ofList (layout.entriesAt i) := by
  rw [assignments, firstAssignments, Nat.min_self]

theorem exists_assignmentAt {index : Nat} (h : index < layout.size) :
    ∃ a ∈ layout.assignments, layout.assignmentAt index = .ok a := by
  refine ⟨_, ?_, assignmentAt_of_lt h⟩
  rw [assignments_eq]
  exact List.mem_map_of_mem (List.mem_range.2 h)

theorem mem_assignments_of_eq {index : Nat} (h : layout.assignmentAt index = .ok s) :
    s ∈ layout.assignments := by
  unfold assignmentAt at h
  split at h
  next lt =>
    cases h
    rw [assignments_eq]
    exact List.mem_map_of_mem (List.mem_range.2 lt)
  next => cases h

/-- The assignments of a layout are read. -/
theorem reads_of_mem_assignments (mem : s ∈ layout.assignments) : layout.Reads s := by
  rw [assignments_eq] at mem
  obtain ⟨index, -, rfl⟩ := List.mem_map.1 mem
  refine reads_iff.2 fun place hp => ?_
  obtain ⟨_, -, value, held, known⟩ := forall₂_mem (layout.positions_of_index index) hp
  exact ⟨value, List.mem_of_getElem? held, known⟩

/-- The assignments of a layout have its indices, in order. -/
theorem indexOf_assignments (distinct : layout.Distinct) :
    List.Forall₂ (fun assignment index => layout.indexOf assignment = .ok index) layout.assignments
      (List.range layout.size) := by
  rw [assignments_eq, List.forall₂_map_left_iff, List.forall₂_same]
  intro index h
  exact indexOf_assignmentAt distinct (List.mem_range.1 h)

/-! ## Assignments within a layout -/

/-- Nothing but names of the layout is assigned. -/
def Covers (layout : Layout) (s : Assignment) : Prop :=
  ∀ name value, s.get? name = some value → name ∈ layout.names

/-- Within a layout an assignment is told by what it gives the names. -/
theorem Covers.eq_of_agree (hs : layout.Covers s) (ht : layout.Covers t) (h : layout.Agree s t) :
    s = t := by
  refine NameMap.ext_get? fun name => ?_
  by_cases mem : name ∈ layout.names
  · exact h name mem
  · rcases held : s.get? name with _ | value
    · rcases held' : t.get? name with _ | value
      · rfl
      · exact absurd (ht name value held') mem
    · exact absurd (hs name value held) mem

/-- Within a layout an assignment is told by its index. -/
theorem Covers.eq_of_indexOf (hs : layout.Covers s) (ht : layout.Covers t) {index : Nat}
    (is : layout.indexOf s = .ok index) (it : layout.indexOf t = .ok index) : s = t :=
  hs.eq_of_agree ht (agree_of_indexOf is it)

theorem covers_restrict (s : Assignment) : layout.Covers (layout.restrict s) := by
  intro name value held
  rw [restrict, NameMap.get?_restrict] at held
  split at held
  next inside => exact List.contains_iff_mem.1 inside
  next => cases held

theorem agree_restrict (s : Assignment) : layout.Agree (layout.restrict s) s := fun _ named =>
  (NameMap.get?_restrict ..).trans (if_pos (List.contains_iff_mem.2 named))

/-- An assignment that has names of a layout only is its own restriction. -/
theorem Covers.restrict_eq (h : layout.Covers s) : layout.restrict s = s := by
  refine NameMap.ext_get? fun name => ?_
  by_cases mem : name ∈ layout.names
  · exact agree_restrict s name mem
  · have outside : ¬ layout.contains name = true := fun inside => mem (List.contains_iff_mem.1 inside)
    rw [restrict, NameMap.get?_restrict, if_neg outside]
    rcases held : s.get? name with _ | value
    · rfl
    · exact absurd (h name value held) mem

theorem restrict_congr (h : layout.Agree s t) : layout.restrict s = layout.restrict t := by
  refine NameMap.ext_get? fun name => ?_
  rw [restrict, restrict, NameMap.get?_restrict, NameMap.get?_restrict]
  split
  next inside => exact h name (List.contains_iff_mem.1 inside)
  next => rfl

theorem covers_of_mem_assignments (mem : s ∈ layout.assignments) : layout.Covers s := by
  rw [assignments_eq] at mem
  obtain ⟨index, -, rfl⟩ := List.mem_map.1 mem
  intro name value held
  have named : name ∈ (layout.entriesAt index).map (·.1) :=
    List.mem_map_of_mem (NameMap.mem_of_get?_ofList held)
  rwa [entriesAt_eq, names_entriesOf (MixedRadix.decode_inRange layout.base_pos index)] at named

theorem names_of_join {a b joint : Layout} (h : a.join b = .ok joint) :
    joint.names = a.names ++ b.names := by
  rw [names, places_of_join h, List.map_append]
  rfl

theorem Covers.merge {a b joint : Layout} (h : a.join b = .ok joint) (hs : a.Covers s)
    (ht : b.Covers t) : joint.Covers (Assignment.merge s t) := by
  intro name value held
  rw [names_of_join h, List.mem_append]
  rw [Assignment.merge, NameMap.get?_union, Option.or_eq_some_iff] at held
  rcases held with overlaid | ⟨-, based⟩
  · exact .inr (ht name value overlaid)
  · exact .inl (hs name value based)

end Layout

/-! ## Tables -/

namespace StateTable

variable {β : Type} {table : StateTable β}

theorem find_of_indexOf {key : Assignment} {i : Nat} (h : table.layout.indexOf key = .ok i) :
    ∃ lt : i < table.cells.size, table.find key = .ok (i, table.cells[i]) := by
  have lt : i < table.cells.size := table.size_cells ▸ Layout.indexOf_lt h
  refine ⟨lt, ?_⟩
  rw [find, h, ok_bind, Array.getElem?_eq_getElem lt]
  rfl

/-- A table is read wherever its layout gives an index. -/
theorem get_of_indexOf {key : Assignment} {i : Nat} (h : table.layout.indexOf key = .ok i) :
    ∃ content, table.at? i = some content ∧ table.get key = .ok content := by
  obtain ⟨lt, found⟩ := find_of_indexOf h
  refine ⟨_, Array.getElem?_eq_getElem lt, ?_⟩
  rw [get, found]
  rfl

theorem get_of_error {key : Assignment} {e : LayoutError} (h : table.layout.indexOf key = .error e) :
    table.get key = .error e := by
  rw [get, find, h]
  rfl

/-- What is read stands in the cell of its key. -/
theorem held_of_get {key : Assignment} {content : β} (h : table.get key = .ok content) :
    ∃ i, table.layout.indexOf key = .ok i ∧ table.at? i = some content := by
  rcases hi : table.layout.indexOf key with e | i
  · rw [get_of_error hi] at h
    cases h
  · obtain ⟨content', held, read⟩ := get_of_indexOf hi
    cases h.symm.trans read
    exact ⟨i, rfl, held⟩

/-- The cells of a table are those of the indices of its layout. -/
theorem lt_of_at? {i : Nat} {content : β} (held : table.at? i = some content) : i < table.layout.size :=
  table.size_cells ▸ (Array.getElem?_eq_some_iff.1 held).1

/-- A table is written wherever its layout gives an index. -/
theorem set_of_indexOf {key : Assignment} {i : Nat} (h : table.layout.indexOf key = .ok i)
    (content : β) : ∃ old, table.set key content = .ok (old, table.setAt i content) := by
  obtain ⟨lt, found⟩ := find_of_indexOf h
  refine ⟨table.cells[i], ?_⟩
  rw [set, found]
  rfl

theorem set_eq_ok {key : Assignment} {content old : β} {after : StateTable β}
    (h : table.set key content = .ok (old, after)) :
    ∃ i, table.layout.indexOf key = .ok i ∧ after = table.setAt i content := by
  rcases hi : table.layout.indexOf key with e | i
  · rw [set, find, hi] at h
    cases h
  · obtain ⟨_, found⟩ := set_of_indexOf hi content
    rw [found] at h
    cases h
    exact ⟨i, rfl, rfl⟩

@[simp] theorem layout_setAt (i : Nat) (content : β) : (table.setAt i content).layout = table.layout :=
  rfl

theorem at?_setAt {i j : Nat} (h : i < table.layout.size) (content : β) :
    (table.setAt i content).at? j = if i = j then some content else table.at? j := by
  rw [← table.size_cells] at h
  rw [at?, setAt, Array.getElem?_setIfInBounds, if_pos h]
  rfl

theorem at?_replicate {layout : Layout} {content : β} {i : Nat} (h : i < layout.size) :
    (replicate layout content).at? i = some content := by
  simp [at?, replicate, h]

/-- An empty table holds nothing. -/
theorem not_held_replicate {layout : Layout} {content : β} {i : Nat} :
    (replicate layout none).at? i ≠ some (some content) := by
  rw [at?, replicate, Array.getElem?_replicate]
  split <;> simp

end StateTable

end Counsel
