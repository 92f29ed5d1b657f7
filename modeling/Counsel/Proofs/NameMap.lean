/-
Maps from names, read by their entries: a look-up finds exactly the entries
(`NameMap.get?_eq_some`), and a map made of a list without repeated names holds that list
(`NameMap.get?_ofList`), in another order (`NameMap.perm_ofList`). A change under one name leaves the
other values where they are (`NameMap.values_modify`).
-/
import Mathlib
import Counsel.NameMap

namespace Counsel.NameMap

variable {β : Type}

/-! ## Entry lists -/

theorem mem_of_find {name : String} {value : β} {l : List (String × β)}
    (h : find name l = some value) : (name, value) ∈ l := by
  induction l with
  | nil => cases h
  | cons e rest ih =>
    rw [find] at h
    split at h
    next same =>
      cases h
      exact same ▸ List.mem_cons_self
    next => exact List.mem_cons_of_mem _ (ih h)

theorem find_of_mem {name : String} {value : β} {l : List (String × β)}
    (nodup : (l.map (·.1)).Nodup) (h : (name, value) ∈ l) : find name l = some value := by
  induction l with
  | nil => cases h
  | cons e rest ih =>
    rw [List.map_cons, List.nodup_cons] at nodup
    rw [find]
    rcases List.mem_cons.1 h with rfl | h
    · exact if_pos rfl
    · have ne : e.1 ≠ name := fun same => nodup.1 (same ▸ List.mem_map_of_mem h)
      rw [if_neg ne, ih nodup.2 h]

theorem find_eq_none_iff {name : String} {l : List (String × β)} :
    find name l = none ↔ name ∉ l.map (·.1) := by
  induction l with
  | nil => simp [find]
  | cons e rest ih =>
    rw [find, List.map_cons, List.mem_cons, not_or]
    split
    next same => simp [same]
    next other =>
      rw [ih]
      exact ⟨fun h => ⟨fun same => other same.symm, h⟩, fun h => h.2⟩

theorem nodup_of_ascending {l : List (String × β)} (h : l.Pairwise (fun a b => a.1 < b.1)) :
    (l.map (·.1)).Nodup := by
  rw [List.Nodup, List.pairwise_map]
  refine h.imp fun {a b} lt (e : a.1 = b.1) => ?_
  rw [e] at lt
  exact String.lt_irrefl _ lt

/-! ## Maps -/

theorem nodup_names (map : NameMap β) : (map.entries.map (·.1)).Nodup :=
  nodup_of_ascending map.ascending

theorem get?_eq_some {map : NameMap β} {name : String} {value : β} :
    map.get? name = some value ↔ (name, value) ∈ map.entries :=
  ⟨mem_of_find, find_of_mem map.nodup_names⟩

theorem mem_names {map : NameMap β} {name : String} :
    name ∈ map.names ↔ ∃ value, map.get? name = some value := by
  simp only [names, List.mem_map, get?_eq_some]
  constructor
  · rintro ⟨e, he, rfl⟩
    exact ⟨e.2, he⟩
  · rintro ⟨value, he⟩
    exact ⟨_, he, rfl⟩

theorem mem_values {map : NameMap β} {value : β} :
    value ∈ map.values ↔ ∃ name, map.get? name = some value := by
  simp only [values, List.mem_map, get?_eq_some]
  constructor
  · rintro ⟨e, he, rfl⟩
    exact ⟨e.1, he⟩
  · rintro ⟨name, he⟩
    exact ⟨_, he, rfl⟩

@[simp] theorem names_mapEntries {δ : Type} (map : NameMap β) (f : String → β → δ) :
    (map.mapEntries f).names = map.names := by
  rw [names, mapEntries, List.map_map]
  rfl

/-- To insert is to change the look-up at one name. -/
theorem get?_insert_eq_update (map : NameMap β) (name : String) (value : β) :
    (map.insert name value).get? = Function.update map.get? name (some value) := by
  funext other
  rw [get?_insert, Function.update_apply]
  exact if_congr eq_comm rfl rfl

theorem mem_names_insert {map : NameMap β} {name other : String} {value : β} :
    other ∈ (map.insert name value).names ↔ name = other ∨ other ∈ map.names := by
  simp only [mem_names, get?_insert]
  split
  next same => simp [same]
  next ne => simp [ne]

/-- A map made of a list without repeated names holds that list. -/
theorem get?_ofList {l : List (String × β)} (nodup : (l.map (·.1)).Nodup) {name : String}
    {value : β} (h : (name, value) ∈ l) : (ofList l).get? name = some value := by
  rw [ofList, get?_foldl_insert, get?_empty, Option.or_none]
  refine find_of_mem ?_ (List.mem_reverse.2 h)
  rw [List.map_reverse]
  exact List.nodup_reverse.2 nodup

/-- A map made of a list holds nothing that is not in the list. -/
theorem mem_of_get?_ofList {l : List (String × β)} {name : String} {value : β}
    (h : (ofList l).get? name = some value) : (name, value) ∈ l := by
  rw [ofList, get?_foldl_insert, get?_empty, Option.or_none] at h
  exact List.mem_reverse.1 (mem_of_find h)

/-- A map made of a list holds nothing under other names. -/
theorem get?_ofList_eq_none {l : List (String × β)} {name : String} :
    (ofList l).get? name = none ↔ name ∉ l.map (·.1) := by
  rw [ofList, get?_foldl_insert, get?_empty, Option.or_none, find_eq_none_iff, List.map_reverse,
    List.mem_reverse]

theorem mem_names_ofList {l : List (String × β)} {name : String} :
    name ∈ (ofList l).names ↔ name ∈ l.map (·.1) := by
  rw [mem_names, ← Option.ne_none_iff_exists', ne_eq, get?_ofList_eq_none, not_not]

/-- A map made of one value under some names holds it under each of them. -/
theorem get?_ofList_const {names : List String} {value : β} {name : String} (h : name ∈ names) :
    (ofList (names.map (·, value))).get? name = some value := by
  rcases found : (ofList (names.map (·, value))).get? name with _ | v
  · rw [get?_ofList_eq_none] at found
    exact absurd (by simpa using h) found
  · obtain ⟨_, _, e⟩ := List.mem_map.1 (mem_of_get?_ofList found)
    exact congrArg some (congrArg Prod.snd e).symm

/-- A map made of a list without repeated names is that list, in another order. -/
theorem perm_ofList {l : List (String × β)} (nodup : (l.map (·.1)).Nodup) :
    (ofList l).entries.Perm l := by
  refine (List.perm_ext_iff_of_nodup (ofList l).nodup_names.of_map nodup.of_map).2 ?_
  rintro ⟨name, value⟩
  rw [← get?_eq_some]
  exact ⟨mem_of_get?_ofList, get?_ofList nodup⟩

theorem values_mapEntries {δ : Type} (map : NameMap β) (f : String → β → δ) :
    (map.mapEntries f).values = map.entries.map fun e => f e.1 e.2 := List.map_map

/-- A value that is changed keeps its place among the others. -/
theorem values_modify {map : NameMap β} {name : String} {value : β} (found : map.get? name = some value)
    (f : β → β) : ∃ before after, map.values = before ++ value :: after ∧
      (map.modify name f).values = before ++ f value :: after := by
  obtain ⟨pre, post, split⟩ := List.append_of_mem (get?_eq_some.1 found)
  have nodup := map.nodup_names
  rw [split, List.map_append, List.map_cons, List.nodup_middle, List.nodup_cons, List.mem_append,
    not_or] at nodup
  obtain ⟨⟨before, after⟩, -⟩ := nodup
  have kept : ∀ l : List (String × β), name ∉ l.map (·.1) →
      (l.map fun e => if e.1 = name then f e.2 else e.2) = l.map (·.2) := by
    intro l others
    refine List.map_congr_left fun e he => if_neg ?_
    rintro rfl
    exact others (List.mem_map_of_mem he)
  refine ⟨pre.map (·.2), post.map (·.2), ?_, ?_⟩
  · rw [values, split, List.map_append, List.map_cons]
  · rw [modify, values_mapEntries, split, List.map_append, List.map_cons, kept pre before,
      kept post after, if_pos rfl]

/-- The same values under other names. -/
def rename (map : NameMap β) (f : String → String) : NameMap β :=
  ofList (map.entries.map fun e => (f e.1, e.2))

/-- Names that stay apart keep their values. -/
theorem values_rename {map : NameMap β} {f : String → String}
    (apart : ∀ a ∈ map.names, ∀ b ∈ map.names, f a = f b → a = b) :
    (map.rename f).values.Perm map.values := by
  have nodup : ((map.entries.map fun e => (f e.1, e.2)).map (·.1)).Nodup := by
    rw [List.map_map]
    have renamed := map.nodup_names.map_on apart
    rwa [names, List.map_map] at renamed
  have same := (perm_ofList nodup).map (·.2)
  rw [List.map_map] at same
  exact same

end Counsel.NameMap
