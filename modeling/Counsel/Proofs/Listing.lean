/-
The listed assignments of a layout. A value is found at its first place in its domain, so the
assignment of an index has the first index under which it is listed (`Layout.isLeast_indexOf`). Hence
indices and listed assignments match one to one exactly if no domain repeats a value: otherwise two
indices have one assignment (`Layout.exists_twins`), and a table is read at the first of them only
(`StateTable.listed_first`).
-/
import Counsel.Proofs.MixedRadix
import Counsel.Proofs.StateTable

namespace Counsel

open Outcome

namespace Layout

variable {layout : Layout} {s t : Assignment}

/-! ## The first index of an assignment -/

theorem assignmentAt_eq_ok {i : Nat} :
    layout.assignmentAt i = .ok s ↔ i < layout.size ∧ NameMap.ofList (layout.entriesAt i) = s := by
  unfold assignmentAt
  split
  next lt => simp [lt]
  next out => simp [out]

theorem getElem?_assignments {i : Nat} :
    layout.assignments[i]? = some s ↔ layout.assignmentAt i = .ok s := by
  rw [assignments_eq, List.getElem?_map, Option.map_eq_some_iff, assignmentAt_eq_ok]
  simp only [List.getElem?_eq_some_iff, List.length_range, List.getElem_range, exists_prop]
  constructor
  · rintro ⟨_, ⟨lt, rfl⟩, made⟩
    exact ⟨lt, made⟩
  · rintro ⟨lt, made⟩
    exact ⟨i, ⟨lt, rfl⟩, made⟩

theorem length_assignments (layout : Layout) : layout.assignments.length = layout.size := by
  rw [assignments_eq, List.length_map, List.length_range]

/-- Where no domain repeats a value, each listed assignment has one index. -/
theorem bijOn_entriesAt (distinct : layout.Distinct) :
    Set.BijOn (fun i => NameMap.ofList (layout.entriesAt i)) (Set.Iio layout.size)
      {a | a ∈ layout.assignments} := by
  refine ⟨fun i lt => mem_assignments_of_eq (assignmentAt_of_lt lt), fun i hi j hj same => ?_, fun a mem => ?_⟩
  · have index := congrArg layout.indexOf same
    rw [indexOf_assignmentAt distinct hi, indexOf_assignmentAt distinct hj] at index
    exact Except.ok.inj index
  · obtain ⟨i, lt, rfl⟩ := List.mem_map.1 ((assignments_eq layout).symm ▸ mem)
    exact ⟨i, List.mem_range.1 lt, rfl⟩

/-- Of the places of a value in a domain the first one is read. -/
theorem position_le {place : Place} {i j : Nat} {value : Value} (read : position s place = .ok i)
    (known : s.get? place.1 = some value) (held : place.2[j]? = some value) : i ≤ j := by
  obtain ⟨value', known', found⟩ := position_eq_ok.1 read
  cases known.symm.trans known'
  obtain ⟨lt, same⟩ := List.getElem?_eq_some_iff.1 held
  by_contra before
  have other := (List.findIdx?_eq_some_iff_getElem.1 found).2.2 j (by omega)
  simp [same] at other

/-- The index at which an assignment of a layout is read is the first under which it is listed. -/
theorem isLeast_indexOf {i j : Nat} (listed : layout.assignmentAt i = .ok s)
    (read : layout.indexOf s = .ok j) : IsLeast {k | layout.assignmentAt k = .ok s} j := by
  have covers := covers_of_mem_assignments (mem_assignments_of_eq listed)
  obtain ⟨digits, steps, rfl⟩ := indexOf_eq_ok.1 read
  have decoded := MixedRadix.decode_encode (inRange_of_positions steps)
  constructor
  · -- under the index that is read the values stand that were read
    have lt := indexOf_lt read
    have there := mem_assignments_of_eq (assignmentAt_of_lt lt)
    have positions := layout.positions_of_index (MixedRadix.encode (bases layout.places) digits)
    rw [decoded] at positions
    refine assignmentAt_eq_ok.2 ⟨lt, (covers_of_mem_assignments there).eq_of_agree covers ?_⟩
    refine agree_of_positions positions (steps.imp fun place digit read => ?_)
    obtain ⟨value, known, held⟩ := value_of_position read
    exact ⟨value, held, known⟩
  · rintro k there
    obtain ⟨lt, rfl⟩ := assignmentAt_eq_ok.1 there
    rw [← MixedRadix.encode_decode lt]
    refine MixedRadix.encode_le (forall₂_of_common steps (layout.positions_of_index k) ?_)
    rintro place digit digit' read ⟨value, held, known⟩
    exact position_le read known held

/-! ## Repeated values -/

/-- Where a domain repeats a value, two indices have one assignment. -/
theorem exists_twins (h : ¬ layout.Distinct) : ∃ i < layout.size, ∃ j < layout.size, i ≠ j ∧
    layout.entriesAt i = layout.entriesAt j := by
  unfold Distinct at h
  push Not at h
  obtain ⟨place, hp, repeated⟩ := h
  rw [List.nodup_iff_getElem?_ne_getElem?] at repeated
  push Not at repeated
  obtain ⟨p, q, before, hq, same⟩ := repeated
  have hp' : p < place.2.length := before.trans hq
  -- the two places of the value, beside the first value of every other domain
  let digits (k : Nat) : List Nat := layout.places.map fun other => if other = place then k else 0
  have range : ∀ k < place.2.length, MixedRadix.InRange (bases layout.places) (digits k) := by
    intro k hk
    rw [MixedRadix.inRange_iff, bases, List.forall₂_map_left_iff, List.forall₂_map_right_iff,
      List.forall₂_same]
    intro other ho
    split
    next e => exact e ▸ hk
    next => exact List.length_pos_iff.2 (layout.domain_ne_nil ho)
  have entries : ∀ k, entriesOf layout.places (digits k) = layout.places.filterMap fun other =>
      other.2[if other = place then k else 0]?.map (other.1, ·) := by
    intro k
    rw [entriesOf, ← List.map_id layout.places, List.zip_map', List.filterMap_map, List.map_id]
    rfl
  refine ⟨_, MixedRadix.encode_lt (range p hp'), _, MixedRadix.encode_lt (range q hq), fun e => ?_, ?_⟩
  · have places := congrArg (MixedRadix.decode (bases layout.places)) e
    rw [MixedRadix.decode_encode (range p hp'), MixedRadix.decode_encode (range q hq),
      List.map_inj_left] at places
    have := places place hp
    simp only [if_true] at this
    omega
  · rw [entriesAt_eq, entriesAt_eq, MixedRadix.decode_encode (range p hp'),
      MixedRadix.decode_encode (range q hq), entries, entries]
    refine List.filterMap_congr fun other _ => ?_
    split
    next e => rw [e, same]
    next => rfl

/-- Each index is that of its assignment exactly if no domain repeats a value. -/
theorem indexOf_assignmentAt_iff : (∀ i < layout.size, ∀ a, layout.assignmentAt i = .ok a →
    layout.indexOf a = .ok i) ↔ layout.Distinct := by
  constructor
  · intro inverse
    by_contra repeated
    obtain ⟨i, hi, j, hj, ne, same⟩ := exists_twins repeated
    have at_i := inverse i hi _ (assignmentAt_of_lt hi)
    rw [same, inverse j hj _ (assignmentAt_of_lt hj), Except.ok.injEq] at at_i
    exact ne at_i.symm
  · rintro distinct i hi a made
    obtain ⟨-, rfl⟩ := assignmentAt_eq_ok.1 made
    exact indexOf_assignmentAt distinct hi

/-- The listed assignments differ exactly if no domain repeats a value. -/
theorem nodup_assignments_iff : layout.assignments.Nodup ↔ layout.Distinct := by
  rw [assignments_eq, List.nodup_map_iff_inj_on List.nodup_range]
  constructor
  · intro inj
    by_contra repeated
    obtain ⟨i, hi, j, hj, ne, same⟩ := exists_twins repeated
    exact ne (inj i (List.mem_range.2 hi) j (List.mem_range.2 hj) (by rw [same]))
  · intro distinct i hi j hj same
    have at_i := indexOf_assignmentAt distinct (List.mem_range.1 hi)
    rw [same, indexOf_assignmentAt distinct (List.mem_range.1 hj), Except.ok.injEq] at at_i
    exact at_i.symm

end Layout

namespace StateTable

/-! ## Tables -/

variable {β : Type} {table : StateTable β}

theorem getElem?_entries {i : Nat} {a : Assignment} {content : β} :
    table.entries[i]? = some (a, content) ↔
      table.layout.assignmentAt i = .ok a ∧ table.at? i = some content := by
  rw [entries, List.getElem?_zip_eq_some, Layout.getElem?_assignments, values, Array.getElem?_toList, at?]

theorem length_entries (table : StateTable β) : table.entries.length = table.layout.size := by
  rw [entries, List.length_zip, Layout.length_assignments, values, Array.length_toList, table.size_cells,
    Nat.min_self]

/-- A table lists each assignment with what is read under it exactly if no domain repeats a value. -/
theorem get_entries_iff {layout : Layout} : (∀ table : StateTable Nat, table.layout = layout →
    ∀ e ∈ table.entries, table.get e.1 = .ok e.2) ↔ layout.Distinct := by
  constructor
  · intro read
    by_contra repeated
    obtain ⟨i, hi, j, hj, ne, same⟩ := Layout.exists_twins repeated
    -- a table whose contents tell the cells apart
    have numbered : ∀ k < layout.size, (generate layout id).get
        (NameMap.ofList (layout.entriesAt k)) = .ok k := fun k hk =>
      read (generate layout id) rfl (_, k) (List.mem_of_getElem? (i := k)
        (getElem?_entries.2 ⟨Layout.assignmentAt_of_lt hk, by simp [at?, generate, hk]⟩))
    have at_i := numbered i hi
    rw [same, numbered j hj, Except.ok.injEq] at at_i
    exact ne at_i.symm
  · rintro distinct table rfl ⟨a, content⟩ mem
    obtain ⟨i, hi⟩ := List.mem_iff_getElem?.1 mem
    obtain ⟨made, held⟩ := getElem?_entries.1 hi
    have lt := (Layout.assignmentAt_eq_ok.1 made).1
    obtain ⟨content', held', read⟩ :=
      get_of_indexOf (Layout.indexOf_assignmentAt_iff.2 distinct i lt a made)
    cases held.symm.trans held'
    exact read

/-- A layout lists as many assignments as it has indices, and a table pairs each of them with the cell of
its index. The index of a listed assignment is the first under which it is listed, and a table is read
there. So the assignment of each index has this index, the listed assignments differ, and every table
lists what is read, in each case exactly if no domain repeats a value. -/
theorem listed_first (table : StateTable β) :
    table.layout.assignments.length = table.layout.size ∧
    table.entries.length = table.layout.size ∧
    (∀ i < table.layout.size, ∃ a content first, table.layout.assignmentAt i = .ok a ∧
      table.layout.assignments[i]? = some a ∧ table.at? i = some content ∧
      table.entries[i]? = some (a, content) ∧ table.layout.indexOf a = .ok first ∧
      IsLeast {k | table.layout.assignmentAt k = .ok a} first ∧
      ∃ seen, table.at? first = some seen ∧ table.get a = .ok seen) ∧
    ((∀ i < table.layout.size, ∀ a, table.layout.assignmentAt i = .ok a →
      table.layout.indexOf a = .ok i) ↔ table.layout.Distinct) ∧
    (table.layout.assignments.Nodup ↔ table.layout.Distinct) ∧
    ((∀ other : StateTable Nat, other.layout = table.layout → ∀ e ∈ other.entries,
      other.get e.1 = .ok e.2) ↔ table.layout.Distinct) := by
  refine ⟨Layout.length_assignments _, length_entries table, fun i hi => ?_,
    Layout.indexOf_assignmentAt_iff, Layout.nodup_assignments_iff, get_entries_iff⟩
  have made := Layout.assignmentAt_of_lt hi
  have lt : i < table.cells.size := table.size_cells ▸ hi
  have held : table.at? i = some table.cells[i] := Array.getElem?_eq_getElem lt
  obtain ⟨first, read⟩ := Layout.reads_of_mem_assignments (Layout.mem_assignments_of_eq made)
  exact ⟨_, _, first, made, Layout.getElem?_assignments.2 made, held, getElem?_entries.2 ⟨made, held⟩, read,
    Layout.isLeast_indexOf made read, get_of_indexOf read⟩

/-- A calm day with a sky. -/
def calm (sky : String) : Assignment := NameMap.ofList [("Sky", .text sky), ("Wind", .bool false)]

/-- The second sunny sky is listed with a cell of its own, which is never read. -/
theorem listed_sunshine : (generate weather id).entries[4]? = some (calm "sun", 4) ∧
    (generate weather id).get (calm "sun") = .ok 0 ∧ ¬ weather.assignments.Nodup := by
  obtain ⟨-, -, listed, -, distinct, -⟩ := listed_first (generate weather id)
  obtain ⟨a, content, first, made, -, held, entry, read, -, seen, shown, got⟩ :=
    listed 4 (by decide +kernel)
  obtain rfl : calm "sun" = a := Except.ok.inj <|
    (by decide +kernel : weather.assignmentAt 4 = .ok (calm "sun")).symm.trans made
  obtain rfl : 0 = first := Except.ok.inj <|
    (by decide +kernel : weather.indexOf (calm "sun") = .ok 0).symm.trans read
  obtain rfl : 4 = content := Option.some.inj <|
    (by decide +kernel : (generate weather id).at? 4 = some 4).symm.trans held
  obtain rfl : 0 = seen := Option.some.inj <|
    (by decide +kernel : (generate weather id).at? 0 = some 0).symm.trans shown
  exact ⟨entry, got, fun once => absurd (distinct.1 once) (by decide +kernel)⟩

end StateTable

end Counsel
