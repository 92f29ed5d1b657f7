/-
Rows of conditional tables as slices. The row of a named assignment of the parents starts at the index of
the assignment in a layout of the parents, times the width (`rowStart_of_index`), so one entry of the
row is the cell whose index counts all positions (`entry_of_shows`). A layout has each index once, hence
each cell is in the row of exactly one assignment (`existsUnique_row`). For a diagram that was built the
rows are those that were checked (`rows_of_build`).
-/
import Counsel.Proofs.Diagram.Likely
import Counsel.Proofs.Diagram.Shown

namespace Counsel

open Outcome

variable {α : Type}

/-! ## One row -/

namespace Factor

/-- Where the row of a conditional table under a named assignment of the parents starts. -/
def rowStart (f : Factor α) (parents : Assignment) : Except ModelError Nat := do
  let child ← f.childVariable
  let slots ← Scope.slotsOf (f.scope.vars.filter (·.id != child.id)) parents
  f.scope.indexWithout child.id slots

section Rows

variable {head : FactorHead} {values : Array α} {v : Variable} {a : Assignment} {start : Nat}
  (child : (table head values).childVariable = .ok v) (starts : (table head values).rowStart a = .ok start)
include child starts

theorem namedRow_of_rowStart :
    (table head values).namedRow a = .ok (v, (values.extract start (start + v.card)).toList) := by
  rw [rowStart, child, ok_bind] at starts
  obtain ⟨slots, placed, there⟩ := bind_eq_ok.1 starts
  have row : (table head values).row slots = .ok (values.extract start (start + v.card)).toList := by
    rw [scope_table] at there
    simp only [row, child, ok_bind, there, pure_eq_ok]
  rw [namedRow, child, ok_bind]
  simp only [placed, ok_bind, row, pure_eq_ok]

theorem conditional_of_rowStart : (table head values).conditional a =
    .ok (v.domain.zip (values.extract start (start + v.card)).toList) := by
  rw [conditional, namedRow_of_rowStart child starts]
  rfl

theorem conditionalAt_of_rowStart {value : Value} {p : Nat} (found : v.position? value = some p)
    {x : α} (there : values[start + p]? = some x) : (table head values).conditionalAt a value = .ok x := by
  have lt : p < v.card := (List.findIdx?_eq_some_iff_getElem.1 found).1
  obtain ⟨inside, held⟩ := Array.getElem?_eq_some_iff.1 there
  have entry : (values.extract start (start + v.card)).toList[p]? = some x := by
    rw [Array.getElem?_toList, Array.getElem?_extract_of_lt (by omega), ← held]
  rw [conditionalAt, namedRow_of_rowStart child starts, ok_bind]
  simp only [found, entry, pure_eq_ok]

end Rows

/-- The value of a table under an assignment that shows its variables. -/
theorem valueAt_of_shows [Scalar α] {head : FactorHead} {values : Array α} {a : Assignment} {x : World}
    (shown : a.Shows head.scope.vars x) {c : α} (there : values[head.scope.indexAt x]? = some c) :
    (table head values).valueAt a = .ok c := by
  obtain ⟨slots, placed, holds⟩ := shown.exists_slotsOf head.scope.nodup_ids
  rw [valueAt, scope_table, placed, ok_bind, value, cell, Scope.indexOfSlots_of_holds holds, ok_bind, there]
  rfl

end Factor

/-- In step with a list without repetitions, an element is paired with one element only. -/
theorem mem_zip_iff {β γ : Type} {xs : List β} {ys : List γ} (nodup : xs.Nodup) {p : Nat} {x : β}
    {y₀ : γ} (hx : xs[p]? = some x) (hy : ys[p]? = some y₀) (y : γ) : (x, y) ∈ xs.zip ys ↔ y = y₀ := by
  rw [List.mem_iff_getElem?]
  simp only [List.getElem?_zip_eq_some]
  constructor
  · rintro ⟨q, hq, held⟩
    obtain ⟨lt, rfl⟩ := List.getElem?_eq_some_iff.1 hx
    obtain rfl : p = q := (List.getElem?_inj lt nodup).1 (hx.trans hq.symm)
    exact Option.some.inj (held.symm.trans hy)
  · rintro rfl
    exact ⟨p, hx, hy⟩

/-- Where variables have values of their domains, an assignment shows them in some world. -/
theorem Assignment.exists_shows {vars : List Variable} {a : Assignment}
    (nodup : (vars.map (·.id)).Nodup)
    (known : ∀ v ∈ vars, ∃ value ∈ v.domain, a.get? v.name = some value) :
    ∃ x : World, a.Shows vars x := by
  -- outside the variables the world does not matter
  refine ⟨fun id => (((vars.find? (·.id == id)).bind fun v =>
    (Scope.namedPosition a v).toOption).getD 0), fun v hv => ?_⟩
  obtain ⟨value, mem, held⟩ := known v hv
  obtain ⟨p, found⟩ : ∃ p, Layout.position a (v.name, v.domain) = .ok p :=
    Layout.exists_position held mem
  have read : Scope.namedPosition a v = .ok p :=
    Scope.namedPosition_eq_ok.2 (Layout.position_eq_ok.1 found)
  simp only [(find?_key nodup).2 ⟨hv, rfl⟩, Option.bind_some, read]
  rfl

namespace Diagram

/-- A value for each parent of a variable, and nothing else. -/
structure OfParents (d : Diagram α) (v : Variable) (a : Assignment) : Prop where
  valued : ∀ u ∈ d.vars, u.id ∈ v.parents → ∃ value ∈ u.domain, a.get? u.name = some value
  only : ∀ name value, a.get? name = some value → ∃ u ∈ d.vars, u.id ∈ v.parents ∧ u.name = name

section Table

variable [Scalar α] {d : Diagram α} {v : Variable} {number : Nat} {scope : Scope} {values : Array α}
  {a : Assignment} {x : World} (vars : scope.vars = d.pick v.parents ++ [v])
include vars

omit [Scalar α] in
theorem nodup_parents : ((d.pick v.parents).map (·.id)).Nodup := by
  have nodup := scope.nodup_ids
  rw [Scope.ids, vars, List.map_append] at nodup
  exact (List.nodup_append.1 nodup).1

omit [Scalar α] in
theorem rowStart_of_shows (shown : a.Shows (d.pick v.parents) x) :
    (Factor.table ⟨number, scope, .probability v.id⟩ values).rowStart a =
      .ok (MixedRadix.encode (Scope.bases (d.pick v.parents))
        ((d.pick v.parents).map fun u => x u.id) * v.card) := by
  obtain ⟨slots, placed, holds⟩ := shown.exists_slotsOf (nodup_parents vars)
  have digits : (d.pick v.parents).mapM (Scope.heldPosition slots) =
      .ok ((d.pick v.parents).map fun u => x u.id) :=
    mapM_eq_ok_map fun u hu => by rw [Scope.heldPosition, holds u.id (List.mem_map_of_mem hu)]
  rw [Factor.rowStart, childVariable_of_last vars, ok_bind, Factor.scope_table]
  simp only [Scope.filter_last vars, placed, ok_bind, Scope.indexWithout_last vars, digits]
  rfl

/-- With a value for the child an assignment shows the parents and the child. -/
theorem shows_insert (h : d.WellFormed) (hv : v ∈ d.vars) (shown : a.Shows (d.pick v.parents) x)
    {value : Value} {p : Nat} (found : v.position? value = some p) :
    Assignment.Shows (a.insert v.name value) scope.vars (Function.update x v.id p) := by
  intro u hu
  rw [vars, List.mem_append, List.mem_singleton] at hu
  rcases hu with hu | rfl
  · have other : u.id ≠ v.id := Scope.ne_last vars u hu
    have named : v.name ≠ u.name := fun same => other
      (congrArg _ (List.inj_on_of_nodup_map h.named (h.mem_pick.1 hu).1 hv same.symm))
    rw [Function.update_of_ne other, ← shown u hu, Scope.namedPosition, Scope.namedPosition,
      NameMap.get?_insert, if_neg named]
  · rw [Function.update_self]
    exact Scope.namedPosition_eq_ok.2 ⟨value, by rw [NameMap.get?_insert, if_pos rfl], found⟩

/-- The parents of a variable have a layout. -/
theorem exists_layout (h : d.WellFormed) (hv : v ∈ d.vars) :
    ∃ layout : Layout, layout.places = (d.pick v.parents).map fun u => (u.name, u.domain) := by
  refine ⟨⟨_, Layout.fault?_eq_none.2 ⟨?_, by simp, List.forall_mem_map.2 fun u hu => ?_⟩, ?_⟩, rfl⟩
  · rw [List.map_map]
    exact h.nodup_names (nodup_parents vars).of_map fun u hu => (h.mem_pick.1 hu).1
  · exact (h.domains u (h.mem_pick.1 hu).1).1
  · refine lt_of_le_of_lt ?_ scope.fits
    rw [← Scope.size, Scope.size_last vars, Layout.bases, List.map_map]
    exact Nat.le_mul_of_pos_right _ (h.card_pos hv)

/-- For a value of the child, the entry of the row and the value of the table with the child added are one
cell. -/
theorem entry_of_shows (h : d.WellFormed) (hv : v ∈ d.vars) (shown : a.Shows (d.pick v.parents) x)
    {start : Nat} (index : start = MixedRadix.encode (Scope.bases (d.pick v.parents))
      ((d.pick v.parents).map fun u => x u.id) * v.card)
    (inside : start + v.card ≤ values.size) {value : Value} (mem : value ∈ v.domain) :
    ∃ c, (∀ y, (value, y) ∈ v.domain.zip (values.extract start (start + v.card)).toList ↔ y = c) ∧
      (Factor.table ⟨number, scope, .probability v.id⟩ values).conditionalAt a value = .ok c ∧
      (Factor.table ⟨number, scope, .probability v.id⟩ values).valueAt (a.insert v.name value) = .ok c := by
  obtain ⟨p, here⟩ := List.mem_iff_getElem?.1 mem
  have found : v.position? value = some p := position?_of_getElem? h hv here
  have lt : p < v.card := (List.getElem?_eq_some_iff.1 here).1
  have there : values[start + p]? = some values[start + p] := Array.getElem?_eq_getElem (by omega)
  refine ⟨values[start + p], fun y => ?_, ?_, ?_⟩
  · refine mem_zip_iff (h.domains v hv).2 here ?_ y
    rw [Array.getElem?_toList, Array.getElem?_extract_of_lt (by omega)]
  · exact Factor.conditionalAt_of_rowStart (childVariable_of_last vars)
      (index ▸ rowStart_of_shows vars shown) found there
  · refine Factor.valueAt_of_shows (shows_insert vars h hv shown found) ?_
    rw [Scope.indexAt_last vars, ← index, there]

/-! ## All rows -/

omit vars in
/-- The assignments of the parents are those that a layout of the parents reads and covers. -/
theorem ofParents_iff (h : d.WellFormed) {layout : Layout}
    (places : layout.places = (d.pick v.parents).map fun u => (u.name, u.domain)) :
    d.OfParents v a ↔ layout.Reads a ∧ layout.Covers a := by
  have names : ∀ name, name ∈ layout.names ↔ ∃ u ∈ d.vars, u.id ∈ v.parents ∧ u.name = name := by
    intro name
    simp only [Layout.names, places, List.map_map, List.mem_map, h.mem_pick, Function.comp, and_assoc]
  rw [Layout.reads_iff, places, List.forall_mem_map]
  simp only [h.mem_pick, and_imp]
  constructor
  · rintro ⟨valued, only⟩
    exact ⟨valued, fun name value held => (names name).2 (only name value held)⟩
  · rintro ⟨valued, covers⟩
    exact ⟨valued, fun name value held => (names name).1 (covers name value held)⟩

omit [Scalar α] in
/-- The row of an assignment starts at its index in a layout of the parents, times the width. -/
theorem rowStart_of_index {layout : Layout}
    (places : layout.places = (d.pick v.parents).map fun u => (u.name, u.domain)) {k : Nat}
    (index : layout.indexOf a = .ok k) :
    (Factor.table ⟨number, scope, .probability v.id⟩ values).rowStart a = .ok (k * v.card) := by
  have known := Layout.reads_iff.1 ⟨k, index⟩
  rw [places, List.forall_mem_map] at known
  obtain ⟨x, shown⟩ := Assignment.exists_shows (nodup_parents vars) known
  rw [Layout.indexOf_of_shows places shown] at index
  cases index
  exact rowStart_of_shows vars shown

/-- Each cell of a table is in the row of exactly one assignment of the parents. -/
theorem existsUnique_row (h : d.WellFormed) (hv : v ∈ d.vars) {i : Nat} (hi : i < scope.size) :
    ∃! a, d.OfParents v a ∧ ∃ start, (Factor.table ⟨number, scope, .probability v.id⟩ values).rowStart a =
      .ok start ∧ start ≤ i ∧ i < start + v.card := by
  obtain ⟨layout, places⟩ := exists_layout vars h hv
  have pos := h.card_pos hv
  have size : scope.size = layout.size * v.card := by
    rw [Scope.size_last vars, Layout.size, places, Layout.bases, List.map_map]
    rfl
  have distinct : layout.Distinct := by
    rw [Layout.Distinct, places, List.forall_mem_map]
    exact fun u hu => (h.domains u (h.mem_pick.1 hu).1).2
  -- the quotient of the cell by the width is the index of the assignment
  have lt : i / v.card < layout.size := Nat.div_lt_of_lt_mul (by rwa [Nat.mul_comm, ← size])
  have index := Layout.indexOf_assignmentAt distinct lt
  have covers := Layout.covers_of_mem_assignments
    (Layout.mem_assignments_of_eq (Layout.assignmentAt_of_lt lt))
  refine ⟨_, ⟨(ofParents_iff h places).2 ⟨⟨_, index⟩, covers⟩, _, rowStart_of_index vars places index,
    Nat.div_mul_le_self i v.card, ?_⟩, ?_⟩
  · have remainder := Nat.mod_lt i pos
    have whole := Nat.div_add_mod' i v.card
    omega
  · rintro b ⟨of_parents, start, starts, le, below⟩
    obtain ⟨⟨k, read⟩, within⟩ := (ofParents_iff h places).1 of_parents
    cases starts.symm.trans (rowStart_of_index vars places read)
    have same : i / v.card = k :=
      Nat.div_eq_of_lt_le le (by rwa [Nat.succ_mul])
    exact within.eq_of_indexOf covers (same ▸ read) index

end Table

/-- In the table of a variable of a diagram that was built, each assignment with values for the parents
has a row: a slice within the table, which sums to one up to the tolerance. For each value of the child
the entry of the distribution, the conditional probability and the value of the table with the child
added are one number. And the rows are a partition: each cell is in the row of exactly one assignment of
the parents. -/
theorem rows_of_build [Scalar α] {decl : Declaration α} {d : Diagram α} (built : decl.build = .ok d)
    {v : Variable} (hv : v ∈ d.vars) {f : Factor α} (found : d.cpt? v.id = some f) :
    ∃ head values, f = .table head values ∧
      (∀ a : Assignment,
        (∀ u ∈ d.vars, u.id ∈ v.parents → ∃ value ∈ u.domain, a.get? u.name = some value) →
        ∃ start, f.rowStart a = .ok start ∧ start + v.card ≤ values.size ∧
          Declaration.NearOne (Scalar.total (values.extract start (start + v.card)).toList) ∧
          ∃ dist, f.conditional a = .ok dist ∧
            dist = v.domain.zip (values.extract start (start + v.card)).toList ∧
            ∀ value ∈ v.domain, ∃ x, (∀ y, (value, y) ∈ dist ↔ y = x) ∧
              f.conditionalAt a value = .ok x ∧ f.valueAt (a.insert v.name value) = .ok x) ∧
      ∀ i < values.size, ∃! a, d.OfParents v a ∧
        ∃ start, f.rowStart a = .ok start ∧ start ≤ i ∧ i < start + v.card := by
  have h := Declaration.wellFormed_of_build built
  obtain ⟨number, scope, values, checked, made, vars⟩ := Declaration.checked_of_build built hv found
  obtain ⟨size, rfl⟩ := Factor.ofValues_eq_ok.1 made
  refine ⟨_, _, rfl, fun a valued => ?_, fun i hi => existsUnique_row vars h hv (size ▸ hi)⟩
  obtain ⟨x, shown⟩ := Assignment.exists_shows (nodup_parents vars) fun u hu =>
    valued u (h.mem_pick.1 hu).1 (h.mem_pick.1 hu).2
  have below : MixedRadix.encode (Scope.bases (d.pick v.parents))
      ((d.pick v.parents).map fun u => x u.id) < MixedRadix.size (Scope.bases (d.pick v.parents)) :=
    MixedRadix.encode_lt (Scope.inRange_map shown.inRange)
  have near := Declaration.nearOne_of_checked checked (by simpa using size) vars (h.card_pos hv) below
  have inside : MixedRadix.encode (Scope.bases (d.pick v.parents))
      ((d.pick v.parents).map fun u => x u.id) * v.card + v.card ≤ values.toArray.size := by
    rw [size, Scope.size_last vars, ← Nat.succ_mul]
    exact Nat.mul_le_mul_right _ below
  exact ⟨_, rowStart_of_shows vars shown, inside, near, _,
    Factor.conditional_of_rowStart (childVariable_of_last vars) (rowStart_of_shows vars shown), rfl,
    fun value mem => entry_of_shows vars h hv shown rfl inside mem⟩

/-- The forecasts on a rainy day are the second row of their table: a rainy one has seven in ten, and no
other weather has the last cell. -/
theorem rows_of_umbrella :
    let forecast : Variable := ⟨⟨1⟩, "Forecast", .chance, [.text "sunny", .text "rainy"], [⟨0⟩]⟩
    let rain : Assignment := NameMap.ofList [("Weather", .text "rain")]
    ∃ f, umbrellaDiagram.cpt? forecast.id = some f ∧ f.rowStart rain = .ok 2 ∧
      f.conditionalAt rain (.text "rainy") = .ok (7/10) ∧
      f.valueAt (rain.insert "Forecast" (.text "rainy")) = .ok (7/10) ∧
      ∃! a, umbrellaDiagram.OfParents forecast a ∧
        ∃ start, f.rowStart a = .ok start ∧ start ≤ 3 ∧ 3 < start + 2 := by
  intro forecast rain
  let f := (umbrellaDiagram.cpt? forecast.id).get (by decide +kernel)
  have hv : forecast ∈ umbrellaDiagram.vars := by decide +kernel
  have found : umbrellaDiagram.cpt? forecast.id = some f := (Option.some_get _).symm
  obtain ⟨head, values, table, rows, cells⟩ := rows_of_build build_umbrella hv found
  obtain ⟨start, starts, inside, -, dist, -, -, entries⟩ := rows rain (by decide +kernel)
  obtain ⟨x, -, asked, cell⟩ := entries (.text "rainy") (by decide +kernel)
  have second : f.rowStart rain = .ok 2 := by decide +kernel
  have likely : f.conditionalAt rain (.text "rainy") = .ok (7/10) := by decide +kernel
  cases second.symm.trans starts
  cases likely.symm.trans asked
  exact ⟨f, found, starts, asked, cell, cells 3 inside⟩

end Diagram

end Counsel
