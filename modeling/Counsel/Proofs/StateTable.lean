/-
Tables as maps. Whatever was done to a table, under a key stands what was last written to an assignment
that agrees with it on the names of the layout (`StateTable.map_of_changes`): a change of one cell is seen
under these keys and no others (`get_setAt`), and a change that is refused leaves the table as it is
(`perform_of_refused`).
-/
import Counsel.Proofs.Layout

namespace Counsel

open Outcome

namespace StateTable

variable {β : Type}

/-! ## Changes -/

/-- A change of a table: the cell of a key gets a new content, or one made of the old content, or every
cell gets the same content. -/
inductive Change (β : Type) where
  | set (key : Assignment) (content : β)
  | modify (key : Assignment) (f : β → β)
  | fill (content : β)

/-- What a change replies, and the table after it. A change that is refused leaves the table as it is. -/
def Change.perform (table : StateTable β) : Change β → Except LayoutError (Option β) × StateTable β
  | .set key content =>
    match table.set key content with
    | .ok (old, after) => (.ok (some old), after)
    | .error e => (.error e, table)
  | .modify key f =>
    match table.modify key f with
    | .ok (new, after) => (.ok (some new), after)
    | .error e => (.error e, table)
  | .fill content => (.ok none, table.fill content)

/-- The table after some changes. -/
def after (table : StateTable β) (changes : List (Change β)) : StateTable β :=
  changes.foldl (fun table change => (change.perform table).2) table

/-- What stands under a key after some changes, of which the latest comes first: what was last written
to an assignment that agrees with the key, or the initial content. -/
def written (layout : Layout) (key : Assignment) (initial : β) : List (Change β) → β
  | [] => initial
  | .set other content :: earlier =>
    if layout.Agree other key then content else written layout key initial earlier
  | .modify other f :: earlier =>
    if layout.Agree other key then f (written layout key initial earlier)
    else written layout key initial earlier
  | .fill content :: _ => content

/-- The reply to a change of a map: what stood under the key, or what stands there then. -/
def Change.reply (look : Assignment → Except LayoutError β) : Change β → Except LayoutError (Option β)
  | .set key _ => (look key).map some
  | .modify key f => (look key).map fun old => some (f old)
  | .fill _ => .ok none

/-- What stands under a key is made by the latest change of what stood there before. -/
theorem written_cons (layout : Layout) (key : Assignment) (initial : β) (change : Change β)
    (earlier : List (Change β)) :
    written layout key initial (change :: earlier) =
      written layout key (written layout key initial earlier) [change] := by
  cases change <;> rfl

/-! ## One change -/

variable {table : StateTable β} {key other : Assignment}

theorem get_eq_ok_iff : (∃ content, table.get key = .ok content) ↔ table.layout.Reads key := by
  rcases hi : table.layout.indexOf key with e | i
  · simp [get_of_error hi, Layout.Reads, hi]
  · obtain ⟨content, -, read⟩ := get_of_indexOf hi
    exact ⟨fun _ => ⟨i, hi⟩, fun _ => ⟨content, read⟩⟩

/-- A table is read at the names of its layout only. -/
theorem get_congr (same : table.layout.Agree key other) : table.get key = table.get other := by
  rw [get, get, find, find, Layout.indexOf_congr same]

/-- What is written to a cell is seen under the keys of that cell. -/
theorem get_setAt {i : Nat} (at_other : table.layout.indexOf other = .ok i) (content : β) :
    (table.setAt i content).get key =
      if table.layout.Agree other key then .ok content else table.get key := by
  rcases hj : table.layout.indexOf key with e | j
  · have hj' : (table.setAt i content).layout.indexOf key = .error e := hj
    rw [get_of_error hj, get_of_error hj', if_neg]
    intro agree
    rw [← Layout.indexOf_congr agree, at_other] at hj
    cases hj
  · obtain ⟨old, held, read⟩ := get_of_indexOf hj
    have hj' : (table.setAt i content).layout.indexOf key = .ok j := hj
    obtain ⟨new, held', read'⟩ := get_of_indexOf hj'
    rw [at?_setAt (Layout.indexOf_lt at_other)] at held'
    rw [read, read']
    simp only [Layout.agree_iff at_other hj]
    split at held'
    next here => rw [if_pos here, Option.some.inj held']
    next there => rw [if_neg there, Option.some.inj (held.symm.trans held')]

theorem get_replicate {layout : Layout} (reads : layout.Reads key) (content : β) :
    (replicate layout content).get key = .ok content := by
  obtain ⟨i, hi⟩ := reads
  have hi' : (replicate layout content).layout.indexOf key = .ok i := hi
  obtain ⟨held, there, read⟩ := get_of_indexOf hi'
  rw [at?_replicate (Layout.indexOf_lt hi)] at there
  rw [read, Option.some.inj there]

theorem get_fill (content : β) : (table.fill content).get key = (table.get key).map fun _ => content := by
  rcases hi : table.layout.indexOf key with e | i
  · have hi' : (table.fill content).layout.indexOf key = .error e := hi
    rw [get_of_error hi, get_of_error hi']
    rfl
  · obtain ⟨old, -, read⟩ := get_of_indexOf hi
    rw [read, fill, get_replicate ⟨i, hi⟩]
    rfl

/-- The reply to a change is that of a map with the contents of the table. -/
theorem reply_perform (change : Change β) : (change.perform table).1 = change.reply table.get := by
  cases change with
  | set key content =>
    rw [Change.perform, set, Change.reply, get]
    rcases table.find key with e | ⟨i, old⟩ <;> rfl
  | modify key f =>
    rw [Change.perform, modify, Change.reply, get]
    rcases table.find key with e | ⟨i, old⟩ <;> rfl
  | fill content => rfl

/-- A change that is refused leaves the table as it is. -/
theorem perform_of_refused {change : Change β} {e : LayoutError}
    (refused : (change.perform table).1 = .error e) : (change.perform table).2 = table := by
  cases change with
  | set key content =>
    rw [Change.perform, set] at refused ⊢
    rcases found : table.find key with e' | ⟨i, old⟩
    · rfl
    · rw [found] at refused
      cases refused
  | modify key f =>
    rw [Change.perform, modify] at refused ⊢
    rcases found : table.find key with e' | ⟨i, old⟩
    · rfl
    · rw [found] at refused
      cases refused
  | fill content => cases refused

/-- A new content is a change of the old one that does not look at it. -/
theorem perform_set (key : Assignment) (content : β) :
    ((Change.set key content).perform table).2 =
      ((Change.modify key fun _ => content).perform table).2 := by
  rw [Change.perform, Change.perform, set, modify]
  rcases table.find key with e | ⟨i, old⟩ <;> rfl

@[simp] theorem layout_perform (change : Change β) : (change.perform table).2.layout = table.layout := by
  have modified : ∀ key f, ((Change.modify key f).perform table).2.layout = table.layout := by
    intro key f
    rw [Change.perform, modify]
    rcases table.find key with e | ⟨i, old⟩ <;> rfl
  cases change with
  | set key content => rw [perform_set, modified]
  | modify key f => exact modified key f
  | fill content => rfl

/-- A change of a cell is seen under the keys that agree with its own. -/
theorem get_modified (f : β → β) :
    ((Change.modify other f).perform table).2.get key =
      (table.get key).map fun content => if table.layout.Agree other key then f content else content := by
  rcases hi : table.layout.indexOf other with e | i
  · have refused : (Change.modify other f).perform table = (.error e, table) := by
      rw [Change.perform, modify, find, hi]
      rfl
    rw [refused]
    rcases held : table.get key with e' | content
    · rfl
    · obtain ⟨j, hj⟩ := get_eq_ok_iff.1 ⟨content, held⟩
      have apart : ¬ table.layout.Agree other key := fun agree => by
        rw [Layout.indexOf_congr agree, hj] at hi
        cases hi
      exact congrArg Except.ok (if_neg apart).symm
  · obtain ⟨lt, found⟩ := find_of_indexOf hi
    have old : table.get other = .ok table.cells[i] := by
      rw [get, found]
      rfl
    have done : (Change.modify other f).perform table =
        (.ok (some (f table.cells[i])), table.setAt i (f table.cells[i])) := by
      rw [Change.perform, modify, found]
      rfl
    rw [done, get_setAt hi]
    by_cases agree : table.layout.Agree other key
    · simp only [if_pos agree, ← get_congr agree, old]
      rfl
    · simp only [if_neg agree]
      rcases table.get key with e | content <;> rfl

/-- What stands under a key after a change is made of what stood there before. -/
theorem get_perform (change : Change β) : (change.perform table).2.get key =
    (table.get key).map fun content => written table.layout key content [change] := by
  cases change with
  | set other content => rw [perform_set, get_modified]; rfl
  | modify other f => rw [get_modified]; rfl
  | fill content => exact get_fill content

/-! ## Any changes -/

theorem after_concat (table : StateTable β) (earlier : List (Change β)) (change : Change β) :
    table.after (earlier ++ [change]) = (change.perform (table.after earlier)).2 := by
  rw [after, List.foldl_append]
  rfl

@[simp] theorem layout_after (table : StateTable β) (changes : List (Change β)) :
    (table.after changes).layout = table.layout := by
  induction changes using List.reverseRecOn with
  | nil => rfl
  | append_singleton earlier change ih => rw [after_concat, layout_perform, ih]

/-- Under a key stands what was last written to an assignment that agrees with it. -/
theorem get_after_eq (table : StateTable β) (changes : List (Change β)) (key : Assignment) :
    (table.after changes).get key =
      (table.get key).map fun initial => written table.layout key initial changes.reverse := by
  induction changes using List.reverseRecOn with
  | nil => rcases held : table.get key with e | initial <;> simp [after, held, written, Except.map]
  | append_singleton earlier change ih =>
    rw [after_concat, get_perform, ih, layout_after, List.reverse_append, List.reverse_singleton,
      List.singleton_append]
    rcases table.get key with e | initial
    · rfl
    · exact congrArg Except.ok (written_cons ..).symm

/-- Whatever was done to a table, it is a map from the assignments that give every name of the layout a
value of its domain. Under a key stands what was last written to an assignment that agrees with it on these
names, or to every cell since, or the initial content. Keys have one cell exactly when they agree, so other
names do not matter. A change replies what stood under its key or stands there then, and one that is refused
leaves every cell as it is. -/
theorem map_of_changes (table : StateTable β) (changes : List (Change β)) :
    (∀ key, (table.after changes).get key =
      (table.get key).map fun initial => written table.layout key initial changes.reverse) ∧
    (∀ key, (∃ content, (table.after changes).get key = .ok content) ↔
      ∀ place ∈ table.layout.places, ∃ value ∈ place.2, key.get? place.1 = some value) ∧
    (∀ s t i j, table.layout.indexOf s = .ok i → table.layout.indexOf t = .ok j →
      (i = j ↔ table.layout.Agree s t)) ∧
    (∀ s t, table.layout.Agree s t → (table.after changes).get s = (table.after changes).get t) ∧
    ∀ change : Change β, (change.perform (table.after changes)).1 = change.reply (table.after changes).get ∧
      ∀ e, (change.perform (table.after changes)).1 = .error e →
        (change.perform (table.after changes)).2 = table.after changes := by
  refine ⟨get_after_eq table changes, fun key => ?_, fun s t i j hs ht => (Layout.agree_iff hs ht).symm,
    fun s t same => get_congr (by rwa [layout_after]),
    fun change => ⟨reply_perform change, fun e => perform_of_refused⟩⟩
  rw [get_eq_ok_iff, layout_after]
  exact Layout.reads_iff

/-- Sky and wind; one kind of sky is listed twice. -/
def weather : Layout := (Layout.ofPlaces [("Sky", [.text "sun", .text "rain", .text "sun"]),
  ("Wind", Value.boolean)]).toOption.get (by decide +kernel)

/-- A kind of sky with wind. -/
def windy (sky : String) : Assignment := NameMap.ofList [("Sky", .text sky), ("Wind", .bool true)]

/-- Rain is counted on a Monday and once more on another day, and fog cannot be counted. -/
def forecasts : List (Change Nat) :=
  [.fill 1, .set ((windy "rain").insert "Day" (.text "Monday")) 3, .set (windy "fog") 9,
    .modify (windy "rain") (· + 1)]

theorem map_of_forecasts :
    let table := (replicate weather 0).after forecasts
    table.get (windy "rain") = .ok 4 ∧ table.get (windy "sun") = .ok 1 ∧
      ((Change.set (windy "fog") 9).perform table).2 = table := by
  obtain ⟨get_eq, -, -, -, performs⟩ := map_of_changes (replicate weather 0) forecasts
  have rain : weather.Reads (windy "rain") := ⟨3, by decide +kernel⟩
  have sun : weather.Reads (windy "sun") := ⟨1, by decide +kernel⟩
  refine ⟨?_, ?_, (performs _).2 (.unknownValue "Sky" (.text "fog")) ?_⟩
  · rw [get_eq, get_replicate rain]
    exact congrArg Except.ok (by decide +kernel)
  · rw [get_eq, get_replicate sun]
    exact congrArg Except.ok (by decide +kernel)
  · rw [(performs _).1, Change.reply, get_eq, get, find]
    rfl

end StateTable

end Counsel
