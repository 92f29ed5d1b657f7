/-
Finite maps from names to anything, kept as a list in ascending order of the names. Two maps with
the same look-ups are equal (`NameMap.ext_get?`), an insertion changes one look-up and no other
(`NameMap.get?_insert`), and in a union the right-hand map wins (`NameMap.get?_union`).
-/
namespace Counsel

/-- A finite map from names, listed in ascending order of the names. -/
structure NameMap (β : Type) where
  entries : List (String × β)
  ascending : entries.Pairwise (fun a b => a.1 < b.1)

namespace NameMap

variable {β : Type}

/-! ## The entry list -/

def find (name : String) : List (String × β) → Option β
  | [] => none
  | (n, v) :: rest => if n = name then some v else find name rest

/-- An ascending list with one entry set. -/
def put (name : String) (value : β) : List (String × β) → List (String × β)
  | [] => [(name, value)]
  | (n, v) :: rest =>
    if name < n then (name, value) :: (n, v) :: rest
    else if n = name then (name, value) :: rest
    else (n, v) :: put name value rest

theorem mem_put {name : String} {value : β} {l : List (String × β)} {e : String × β}
    (h : e ∈ put name value l) : e = (name, value) ∨ e ∈ l := by
  induction l with
  | nil => simpa [put] using h
  | cons x rest ih =>
    simp only [put] at h
    split at h
    · simpa using h
    · split at h
      · rcases List.mem_cons.1 h with h | h
        · exact .inl h
        · exact .inr (List.mem_cons_of_mem _ h)
      · rcases List.mem_cons.1 h with h | h
        · exact .inr (h ▸ List.mem_cons_self)
        · exact (ih h).imp id (List.mem_cons_of_mem _)

theorem lt_of_not_lt_of_ne {a b : String} (h : ¬ a < b) (k : b ≠ a) : b < a :=
  Std.lt_of_le_of_ne (Std.not_lt.1 h) k

theorem put_ascending (name : String) (value : β) {l : List (String × β)}
    (h : l.Pairwise (fun a b => a.1 < b.1)) :
    (put name value l).Pairwise (fun a b => a.1 < b.1) := by
  induction l with
  | nil => simp [put]
  | cons x rest ih =>
    obtain ⟨n, v⟩ := x
    have hr := List.pairwise_cons.1 h
    simp only [put]
    split
    next lt =>
      refine List.pairwise_cons.2 ⟨fun e he => ?_, h⟩
      rcases List.mem_cons.1 he with he | he
      · exact he ▸ lt
      · exact String.lt_trans lt (hr.1 e he)
    next nlt =>
      split
      next eq =>
        subst eq
        exact List.pairwise_cons.2 ⟨hr.1, hr.2⟩
      next ne =>
        refine List.pairwise_cons.2 ⟨fun e he => ?_, ih hr.2⟩
        rcases mem_put he with he | he
        · exact he ▸ lt_of_not_lt_of_ne nlt ne
        · exact hr.1 e he

theorem find_put (name other : String) (value : β) (l : List (String × β)) :
    find other (put name value l) = if name = other then some value else find other l := by
  induction l with
  | nil => simp [put, find]
  | cons x rest ih =>
    obtain ⟨n, v⟩ := x
    simp only [put]
    split
    · simp [find]
    · split
      next eq => subst eq; by_cases h : n = other <;> simp [find, h]
      next ne =>
        by_cases h : n = other
        · have : name ≠ other := fun e => ne (h.trans e.symm)
          simp [find, h, this]
        · simp [find, h, ih]

theorem find_eq_none {name : String} {l : List (String × β)} (h : ∀ e ∈ l, name < e.1) :
    find name l = none := by
  induction l with
  | nil => rfl
  | cons x rest ih =>
    have hx := h x List.mem_cons_self
    have : x.1 ≠ name := fun e => String.lt_irrefl _ (e ▸ hx)
    simp [find, this, ih fun e he => h e (List.mem_cons_of_mem _ he)]

theorem entries_ext {l m : List (String × β)} (hl : l.Pairwise (fun a b => a.1 < b.1))
    (hm : m.Pairwise (fun a b => a.1 < b.1)) (h : ∀ name, find name l = find name m) : l = m := by
  induction l generalizing m with
  | nil =>
    cases m with
    | nil => rfl
    | cons y ys => simpa [find] using h y.1
  | cons x xs ih =>
    cases m with
    | nil => simpa [find] using h x.1
    | cons y ys =>
      have cx := List.pairwise_cons.1 hl
      have cy := List.pairwise_cons.1 hm
      -- the smaller of two different first names would be found in one list only
      have hxy : x.1 = y.1 := by
        apply Classical.byContradiction
        intro ne
        by_cases lt : x.1 < y.1
        · have hx := h x.1
          have none : find x.1 (y :: ys) = none := find_eq_none fun e he => by
            rcases List.mem_cons.1 he with he | he
            · exact he ▸ lt
            · exact String.lt_trans lt (cy.1 e he)
          rw [none] at hx
          simp [find] at hx
        · have gt : y.1 < x.1 := lt_of_not_lt_of_ne lt (Ne.symm ne)
          have hy := h y.1
          have none : find y.1 (x :: xs) = none := find_eq_none fun e he => by
            rcases List.mem_cons.1 he with he | he
            · exact he ▸ gt
            · exact String.lt_trans gt (cx.1 e he)
          rw [none] at hy
          simp [find] at hy
      have hv : x.2 = y.2 := by simpa [find, hxy] using h x.1
      have hx : x = y := Prod.ext hxy hv
      subst hx
      have tail : xs = ys := ih cx.2 cy.2 fun name => by
        by_cases e : x.1 = name
        · rw [find_eq_none fun z hz => e ▸ cx.1 z hz, find_eq_none fun z hz => e ▸ cy.1 z hz]
        · simpa [find, e] using h name
      rw [tail]

/-! ## The map -/

def empty : NameMap β := ⟨[], .nil⟩

instance : Inhabited (NameMap β) := ⟨empty⟩

instance : EmptyCollection (NameMap β) := ⟨empty⟩

instance [DecidableEq β] : DecidableEq (NameMap β) := fun a b =>
  decidable_of_iff (a.entries = b.entries)
    ⟨fun h => by cases a; cases b; cases h; rfl, fun h => h ▸ rfl⟩

/-- The value under a name, if the map has one. -/
def get? (map : NameMap β) (name : String) : Option β := find name map.entries

def contains (map : NameMap β) (name : String) : Bool := (map.get? name).isSome

/-- The map with one entry set, in place of the one of that name. -/
def insert (map : NameMap β) (name : String) (value : β) : NameMap β :=
  ⟨put name value map.entries, put_ascending name value map.ascending⟩

/-- The map of a list of entries, of which the last one of each name counts. -/
def ofList (entries : List (String × β)) : NameMap β :=
  entries.foldl (fun map e => map.insert e.1 e.2) empty

/-- The names with an entry, in ascending order. -/
def names (map : NameMap β) : List String := map.entries.map (·.1)

/-- The values, in the order of their names. -/
def values (map : NameMap β) : List β := map.entries.map (·.2)

/-- All entries of both maps; under a name of both stands the value of `overlay`. -/
def union (base overlay : NameMap β) : NameMap β :=
  overlay.entries.foldl (fun map e => map.insert e.1 e.2) base

def restrict (map : NameMap β) (keep : String → Bool) : NameMap β :=
  ⟨map.entries.filter (fun e => keep e.1), map.ascending.filter _⟩

/-- The same names with other values. -/
def mapEntries {γ : Type} (map : NameMap β) (f : String → β → γ) : NameMap γ :=
  ⟨map.entries.map fun e => (e.1, f e.1 e.2), List.pairwise_map.2 map.ascending⟩

/-- The map with the value under a name changed by `f`, if it has one. -/
def modify (map : NameMap β) (name : String) (f : β → β) : NameMap β :=
  map.mapEntries fun n v => if n = name then f v else v

/-! ## Laws -/

/-- A map is known by its look-ups. -/
theorem ext_get? {a b : NameMap β} (h : ∀ name, a.get? name = b.get? name) : a = b := by
  have := entries_ext a.ascending b.ascending h
  cases a; cases b; cases this; rfl

@[simp] theorem get?_empty (name : String) : (empty : NameMap β).get? name = none := rfl

/-- An insertion sets one look-up. -/
theorem get?_insert (map : NameMap β) (name other : String) (value : β) :
    (map.insert name value).get? other = if name = other then some value else map.get? other :=
  find_put name other value map.entries

theorem get?_foldl_insert (entries : List (String × β)) (map : NameMap β) (name : String) :
    (entries.foldl (fun map e => map.insert e.1 e.2) map).get? name =
      (find name entries.reverse).or (map.get? name) := by
  induction entries generalizing map with
  | nil => simp [find]
  | cons e rest ih =>
    have split : ∀ l : List (String × β),
        find name (l ++ [e]) = (find name l).or (if e.1 = name then some e.2 else none) := by
      intro l
      induction l with
      | nil => simp [find]
      | cons x xs ihx => by_cases h : x.1 = name <;> simp [find, h, ihx]
    simp only [List.foldl_cons, ih, List.reverse_cons, split, get?_insert]
    by_cases h : e.1 = name <;> cases find name rest.reverse <;> simp [h]

theorem find_reverse {l : List (String × β)} (h : l.Pairwise (fun a b => a.1 < b.1))
    (name : String) : find name l.reverse = find name l := by
  induction l with
  | nil => rfl
  | cons x xs ih =>
    have c := List.pairwise_cons.1 h
    have split : ∀ l : List (String × β),
        find name (l ++ [x]) = (find name l).or (if x.1 = name then some x.2 else none) := by
      intro l
      induction l with
      | nil => simp [find]
      | cons y ys ihy => by_cases h : y.1 = name <;> simp [find, h, ihy]
    rw [List.reverse_cons, split, ih c.2]
    by_cases e : x.1 = name
    · rw [find_eq_none fun z hz => e ▸ c.1 z hz]
      simp [find, e]
    · simp [find, e]

/-- In a union the right-hand map wins. -/
theorem get?_union (base overlay : NameMap β) (name : String) :
    (base.union overlay).get? name = (overlay.get? name).or (base.get? name) := by
  rw [union, get?_foldl_insert, find_reverse overlay.ascending]
  rfl

theorem get?_restrict (map : NameMap β) (keep : String → Bool) (name : String) :
    (map.restrict keep).get? name = if keep name then map.get? name else none := by
  have : ∀ l : List (String × β),
      find name (l.filter fun e => keep e.1) = if keep name then find name l else none := by
    intro l
    induction l with
    | nil => simp [find]
    | cons e rest ih =>
      by_cases h : e.1 = name
      · subst h; by_cases k : keep e.1 <;> simp [find, k, ih]
      · by_cases k : keep e.1 <;> simp [find, k, h, ih]
  exact this map.entries

theorem get?_mapEntries {γ : Type} (map : NameMap β) (f : String → β → γ) (name : String) :
    (map.mapEntries f).get? name = (map.get? name).map (f name) := by
  have : ∀ l : List (String × β),
      find name (l.map fun e => (e.1, f e.1 e.2)) = (find name l).map (f name) := by
    intro l
    induction l with
    | nil => rfl
    | cons e rest ih =>
      by_cases h : e.1 = name
      · subst h; simp [find]
      · simp [find, h, ih]
  exact this map.entries

end NameMap

end Counsel
