/-
Rows of conditional tables. The table of a chance variable lists, for each position of the parents, the
entries of the variable's own positions; so the row of a world adds up to the sum of the table's values
over the variable (`row_of_conditional`), which is one when the rows of the diagram sum to one
(`sumOver_conditional`).
-/
import Counsel.Proofs.Diagram.WellFormed
import Counsel.Proofs.Factor.Exact

namespace Counsel

open World Outcome

namespace Scope

variable {scope : Scope} {parents : List Variable} {v : Variable}

/-- Where a variable comes last, the index of a world is that of the other positions, times the width,
plus its own position. -/
theorem indexAt_last (vars : scope.vars = parents ++ [v]) (x : World) (p : Nat) :
    scope.indexAt (Function.update x v.id p) =
      MixedRadix.encode (bases parents) (parents.map fun u => x u.id) * v.card + p := by
  have others : parents.map (fun u => Function.update x v.id p u.id) = parents.map fun u => x u.id := by
    refine List.map_congr_left fun u hu => Function.update_of_ne (fun e => ?_) _ _
    have nodup := scope.nodup_ids
    rw [ids, vars, List.map_append, List.nodup_append] at nodup
    exact nodup.2.2 u.id (List.mem_map_of_mem hu) v.id (by simp) e
  rw [indexAt, vars, List.map_append, others, bases, List.map_append,
    MixedRadix.encode_append (by simp), List.map_singleton, List.map_singleton, Function.update_self]
  simp [MixedRadix.encode, MixedRadix.size, bases]

theorem size_last (vars : scope.vars = parents ++ [v]) :
    scope.size = MixedRadix.size (bases parents) * v.card := by
  rw [size, vars, bases, List.map_append, MixedRadix.size_append]
  simp [MixedRadix.size, bases]

end Scope

namespace Slots

/-- Slots with the positions of a world for some variables. -/
def ofWorld (ids : List VarId) (x : World) : Slots := empty.setAll (ids.map fun id => (id, x id))

theorem holds_ofWorld {ids : List VarId} (nodup : ids.Nodup) (x : World) :
    (ofWorld ids x).Holds ids x := by
  intro id hid
  refine get?_setAll_of_mem _ ?_ (List.mem_map_of_mem hid)
  rw [List.map_map]
  simpa [Function.comp_def] using nodup

theorem within_ofWorld {scope : Scope} {x : World} (range : x.InRange scope.vars) :
    (ofWorld scope.ids x).Within scope.vars := by
  intro v hv p hp
  have held := holds_ofWorld scope.nodup_ids x v.id (Scope.mem_ids.2 ⟨v, hv, rfl⟩)
  rw [held] at hp
  cases hp
  exact range v hv

end Slots

namespace Diagram

section Entries

variable {α : Type}

theorem extract_eq_map [Scalar α] (values : Array α) (start width : Nat)
    (h : start + width ≤ values.size) : (values.extract start (start + width)).toList =
      (List.range width).map fun p => values[start + p]?.getD 0 := by
  refine List.ext_getElem (by simp; omega) fun i hi _ => ?_
  have lt : start + i < values.size := by simp at hi; omega
  simp [lt]

theorem childVariable_of_last {number : Nat} {scope : Scope} {parents : List Variable} {v : Variable}
    {values : Array α} (vars : scope.vars = parents ++ [v]) :
    (Factor.table ⟨number, scope, .probability v.id⟩ values).childVariable = .ok v := by
  unfold Factor.childVariable Factor.role Factor.scope Factor.head
  simp [vars]

/-- The child of a table is the last of its variables. -/
theorem vars_of_childVariable {f : Factor α} {v : Variable} (h : f.childVariable = .ok v) :
    f.scope.vars = f.scope.vars.dropLast ++ [v] := by
  unfold Factor.childVariable at h
  split at h
  next _ last _ hl =>
    split at h
    next =>
      cases h
      rw [List.dropLast_append_getLast? v hl]
    next => cases h
  next => cases h

/-- The row of a table starts at the index of the parents' positions, times the width. -/
theorem row_table {number : Nat} {scope : Scope} {parents : List Variable} {v : Variable}
    (values : Array α) (vars : scope.vars = parents ++ [v]) (slots : Slots) :
    (Factor.table ⟨number, scope, .probability v.id⟩ values).row slots =
      (parents.mapM (Scope.heldPosition slots)).map fun digits =>
        (values.extract (MixedRadix.encode (Scope.bases parents) digits * v.card)
          (MixedRadix.encode (Scope.bases parents) digits * v.card + v.card)).toList := by
  unfold Factor.row
  simp only [childVariable_of_last vars, ok_bind, Scope.indexWithout_last vars]
  rcases parents.mapM (Scope.heldPosition slots) with e | digits <;> rfl

variable [Scalar α] {d : Diagram α} {v : Variable} {f : Factor α}

/-- Where the parents have the positions of a world, the row lists the values of the table over the
positions of the child. -/
theorem row_eq_map (h : d.WellFormed) (hf : d.Conditional v f) {x : World} (range : x.InRange d.vars)
    {slots : Slots} (holds : slots.Holds v.parents x) :
    f.row slots = .ok ((List.range v.card).map fun p => f.valueIn (Function.update x v.id p)) := by
  obtain ⟨number, scope, values, made, vars, -⟩ := hf
  obtain ⟨size, rfl⟩ := Factor.ofValues_eq_ok.1 made
  have digits : (d.pick v.parents).mapM (Scope.heldPosition slots) =
      .ok ((d.pick v.parents).map fun u => x u.id) :=
    mapM_eq_ok_map fun u hu => by rw [Scope.heldPosition, holds u.id (h.mem_pick.1 hu).2]
  let start := MixedRadix.encode (Scope.bases (d.pick v.parents))
    ((d.pick v.parents).map fun u => x u.id)
  have within : start * v.card + v.card ≤ values.size := by
    have lt : start < MixedRadix.size (Scope.bases (d.pick v.parents)) :=
      MixedRadix.encode_lt (Scope.inRange_map fun u hu => range u (h.mem_pick.1 hu).1)
    rw [size, Scope.size_last vars, ← Nat.succ_mul]
    exact Nat.mul_le_mul_right _ lt
  rw [row_table values vars, digits, Except.map, extract_eq_map values _ _ within]
  refine congrArg Except.ok (List.map_congr_left fun p _ => ?_)
  rw [Factor.valueIn, Factor.cellIn]
  simp only [Scope.indexAt_last vars, start]

end Entries

/-- The entries of every conditional table sum to one for each position of the parents. -/
def RowsSumToOne (d : Diagram Rat) : Prop :=
  ∀ f ∈ d.probabilityFactors, ∀ slots : Slots, slots.Within f.scope.vars →
    ∀ row, f.row slots = .ok row → row.sum = 1

/-- The sums of the rows of a conditional table. -/
def rowSums (f : Factor Rat) : List Rat :=
  match f, f.childVariable with
  | .table head values, .ok child =>
    (List.range (MixedRadix.size (Scope.bases head.scope.vars.dropLast))).map fun k =>
      (values.extract (k * child.card) (k * child.card + child.card)).toList.sum
  | _, _ => []

theorem inRange_of_held {slots : Slots} {vars : List Variable} {digits : List Nat}
    (held : vars.mapM (Scope.heldPosition slots) = .ok digits)
    (within : ∀ v ∈ vars, ∀ p, slots.get? v.id = some p → p < v.card) :
    MixedRadix.InRange (Scope.bases vars) digits := by
  rw [mapM_eq_ok] at held
  induction held with
  | nil => trivial
  | @cons v p vars digits head _ ih =>
    refine ⟨?_, ih fun u hu => within u (List.mem_cons_of_mem _ hu)⟩
    unfold Scope.heldPosition at head
    split at head
    next hp =>
      cases head
      exact within v List.mem_cons_self p hp
    next => cases head

/-- The sum of a row is among those of the table. -/
theorem sum_mem_rowSums {f : Factor Rat} {slots : Slots} (within : slots.Within f.scope.vars)
    {row : List Rat} (hr : f.row slots = .ok row) : row.sum ∈ rowSums f := by
  unfold Factor.row at hr
  split at hr
  next head values =>
    obtain ⟨child, hc, hr⟩ := bind_eq_ok.1 hr
    obtain ⟨start, hs, hr⟩ := bind_eq_ok.1 hr
    cases hr
    have vars : head.scope.vars = head.scope.vars.dropLast ++ [child] := vars_of_childVariable hc
    rw [Scope.indexWithout_last vars] at hs
    obtain ⟨digits, hd, rfl⟩ := map_eq_ok.1 hs
    unfold rowSums
    rw [hc]
    refine List.mem_map.2 ⟨_, List.mem_range.2 ?_, rfl⟩
    refine MixedRadix.encode_lt (inRange_of_held hd fun v hv => within v ?_)
    exact List.mem_of_mem_dropLast hv
  next => cases hr

/-- Rows sum to one when their sums, worked out one by one, are all one. -/
theorem rowsSumToOne_of_rowSums {d : Diagram Rat}
    (h : ∀ f ∈ d.probabilityFactors, ∀ sum ∈ rowSums f, sum = 1) : d.RowsSumToOne :=
  fun f hf _ within _ hr => h f hf _ (sum_mem_rowSums within hr)

/-- A conditional table depends on chance variables only. -/
theorem Conditional.valueIn_congr {d : Diagram Rat} (h : d.WellFormed) {v : Variable}
    (hv : v ∈ d.chanceVars) {f : Factor Rat} (cond : d.Conditional v f) {x y : World}
    (same : ∀ u ∈ d.chanceVars, x u.id = y u.id) : f.valueIn x = f.valueIn y := by
  obtain ⟨hm, chance⟩ := mem_chanceVars.1 hv
  refine Factor.valueIn_congr (h.built_conditional hm cond).1 fun id hid => ?_
  rcases (cond.mem_ids h hm).1 hid with parent | rfl
  · obtain ⟨u, hu, rfl, kind⟩ := h.parents v hm id parent
    exact same u (mem_chanceVars.2 ⟨hu, kind chance⟩)
  · exact same v hv

/-- The row of a world in range adds up to the sum of the values over the positions of the child. -/
theorem row_of_conditional {d : Diagram Rat} (h : d.WellFormed) {v : Variable} (hv : v ∈ d.vars)
    {f : Factor Rat} (hf : d.Conditional v f) {x : World} (range : x.InRange d.vars) :
    ∃ row, f.row (Slots.ofWorld f.scope.ids x) = .ok row ∧ row.sum = sumOver v f.valueIn x :=
  ⟨_, row_eq_map h hf range fun id hid => Slots.holds_ofWorld f.scope.nodup_ids x id
    ((hf.mem_ids h hv).2 (.inl hid)), rfl⟩

/-- Where rows sum to one, so does a table over its child. -/
theorem sumOver_conditional {d : Diagram Rat} (h : d.WellFormed) (rows : d.RowsSumToOne)
    {v : Variable} (hv : v ∈ d.vars) {f : Factor Rat} (mem : f ∈ d.probabilityFactors)
    (hf : d.Conditional v f) {x : World} (range : x.InRange d.vars) :
    sumOver v f.valueIn x = 1 := by
  obtain ⟨row, hr, sum⟩ := row_of_conditional h hv hf range
  have built := (h.built_conditional hv hf).1
  rw [← sum]
  exact rows f mem _ (Slots.within_ofWorld fun u hu => range u (built.mem_vars u hu)) row hr

end Diagram

end Counsel
