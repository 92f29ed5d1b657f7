/-
Partial assignments of positions beside total ones. A world gives every variable a position; slots
hold a world on some variables when they give the same positions there. Setting entries of slots and
of worlds goes hand in hand (`holds_setAll`), and what slots assign is what their look-ups say
(`mem_assigned`).
-/
import Mathlib
import Counsel.Diagram.Variable

namespace Counsel

/-- A position for every variable. -/
abbrev World := VarId → Nat

namespace World

/-- The world with some positions set, one after the other. -/
def setAll (x : World) : List (VarId × Nat) → World
  | [] => x
  | (id, position) :: rest => setAll (Function.update x id position) rest

/-- Every position of some variables is in the domain. -/
def InRange (vars : List Variable) (x : World) : Prop := ∀ v ∈ vars, x v.id < v.card

/-- With one position set, worlds have the same position where they had it and at the one that is set. -/
theorem update_congr {x y : World} {id other : VarId} (same : id ≠ other → x id = y id) (p : Nat) :
    Function.update x other p id = Function.update y other p id := by
  by_cases here : id = other
  · rw [here, Function.update_self, Function.update_self]
  · rw [Function.update_of_ne here, Function.update_of_ne here, same here]

theorem setAll_congr {l : List (VarId × Nat)} {x y : World} {id : VarId}
    (same : id ∉ l.map (·.1) → x id = y id) : x.setAll l id = y.setAll l id := by
  induction l generalizing x y with
  | nil => exact same List.not_mem_nil
  | cons e rest ih =>
    refine ih fun out => update_congr (fun ne => same ?_) e.2
    exact fun listed => (List.mem_cons.1 listed).elim ne out

theorem setAll_of_notMem {l : List (VarId × Nat)} {id : VarId} (x : World) (h : id ∉ l.map (·.1)) :
    x.setAll l id = x id := by
  induction l generalizing x with
  | nil => rfl
  | cons e rest ih =>
    simp only [List.map_cons, List.mem_cons, not_or] at h
    rw [setAll, ih _ h.2, Function.update_of_ne h.1]

theorem setAll_of_mem {l : List (VarId × Nat)} (x : World) {id : VarId} {position : Nat}
    (nodup : (l.map (·.1)).Nodup) (h : (id, position) ∈ l) : x.setAll l id = position := by
  induction l generalizing x with
  | nil => cases h
  | cons e rest ih =>
    rw [List.map_cons, List.nodup_cons] at nodup
    rcases List.mem_cons.1 h with rfl | h
    · rw [setAll, setAll_of_notMem _ nodup.1, Function.update_self]
    · exact ih _ nodup.2 h

/-- A world that has the positions already is not changed by setting them. -/
theorem setAll_eq_self {l : List (VarId × Nat)} {x : World} (h : ∀ e ∈ l, x e.1 = e.2) :
    x.setAll l = x := by
  induction l with
  | nil => rfl
  | cons e rest ih =>
    rw [setAll, ← h e List.mem_cons_self, Function.update_eq_self]
    exact ih fun e he => h e (List.mem_cons_of_mem _ he)

theorem InRange.update {vars : List Variable} {x : World} (h : InRange vars x)
    (inj : ∀ u ∈ vars, ∀ v ∈ vars, u.id = v.id → u = v) {v : Variable} (hv : v ∈ vars)
    {position : Nat} (hp : position < v.card) : InRange vars (Function.update x v.id position) := by
  intro u hu
  by_cases e : u.id = v.id
  · rw [inj u hu v hv e, Function.update_self]; exact hp
  · rw [Function.update_of_ne e]; exact h u hu

end World

namespace Slots

/-- The slots give some variables the positions of a world. -/
def Holds (slots : Slots) (ids : List VarId) (x : World) : Prop :=
  ∀ id ∈ ids, slots.get? id = some (x id)

/-- Two slots give some variables the same positions, or none. -/
def AgreeOn (ids : List VarId) (s t : Slots) : Prop := ∀ id ∈ ids, s.get? id = t.get? id

/-- Two slots give every variable the same position, or none. -/
def Same (s t : Slots) : Prop := ∀ id, s.get? id = t.get? id

/-- The positions that the slots give some variables are in the domains. -/
def Within (vars : List Variable) (slots : Slots) : Prop :=
  ∀ v ∈ vars, ∀ position, slots.get? v.id = some position → position < v.card

/-- The world of the slots, with the first position for variables that have none. -/
def world (slots : Slots) : World := fun id => (slots.get? id).getD 0

/-! ## Look-ups -/

theorem isAssigned_iff {slots : Slots} {id : VarId} :
    slots.isAssigned id = true ↔ ∃ position, slots.get? id = some position :=
  Option.isSome_iff_exists

theorem isAssigned_eq_false {slots : Slots} {id : VarId} :
    slots.isAssigned id = false ↔ slots.get? id = none := by
  rw [isAssigned, Option.isSome_eq_false_iff, Option.isNone_iff_eq_none]

/-- The listed entries are the look-ups. -/
theorem mem_assigned {slots : Slots} {id : VarId} {position : Nat} :
    (id, position) ∈ slots.assigned ↔ slots.get? id = some position := by
  simp only [assigned, List.mem_filterMap, Prod.exists, List.mem_zipIdx_iff_getElem?,
    Array.getElem?_toList, Option.map_eq_some_iff, Prod.mk.injEq, get?]
  constructor
  · rintro ⟨cell, i, hi, q, rfl, rfl, rfl⟩
    simp [hi]
  · intro h
    rw [Option.join_eq_some_iff] at h
    exact ⟨some position, id.index, h, position, rfl, rfl, rfl⟩

theorem mem_assigned_ids {slots : Slots} {id : VarId} :
    id ∈ slots.assigned.map (·.1) ↔ slots.isAssigned id = true := by
  rw [isAssigned_iff, List.mem_map]
  constructor
  · rintro ⟨⟨_, position⟩, h, rfl⟩
    exact ⟨position, mem_assigned.1 h⟩
  · rintro ⟨position, h⟩
    exact ⟨(id, position), mem_assigned.2 h, rfl⟩

theorem get?_setAll_of_notMem {l : List (VarId × Nat)} {id : VarId} (slots : Slots)
    (h : id ∉ l.map (·.1)) : (slots.setAll l).get? id = slots.get? id := by
  induction l generalizing slots with
  | nil => rfl
  | cons e rest ih =>
    simp only [List.map_cons, List.mem_cons, not_or] at h
    rw [setAll, ih _ h.2, get?_set, if_neg (Ne.symm h.1)]

theorem get?_setAll_of_mem {l : List (VarId × Nat)} (slots : Slots) {id : VarId} {position : Nat}
    (nodup : (l.map (·.1)).Nodup) (h : (id, position) ∈ l) :
    (slots.setAll l).get? id = some position := by
  induction l generalizing slots with
  | nil => cases h
  | cons e rest ih =>
    rw [List.map_cons, List.nodup_cons] at nodup
    rcases List.mem_cons.1 h with rfl | h
    · rw [setAll, get?_setAll_of_notMem _ nodup.1, get?_set, if_pos rfl]
    · exact ih _ nodup.2 h

/-! ## Agreement -/

theorem set_eq_self {slots : Slots} {id : VarId} {p : Nat} (held : slots.get? id = some p) :
    slots.set id (some p) = slots := by
  have there : slots.cells[id.index]? = some (some p) := Option.join_eq_some_iff.1 held
  obtain ⟨lt, same⟩ := Array.getElem?_eq_some_iff.1 there
  rw [set, if_pos lt]
  congr 1
  refine Array.ext (Array.size_setIfInBounds ..) fun i _ hi => ?_
  rw [Array.getElem_setIfInBounds hi]
  split
  next e =>
    subst e
    exact same.symm
  next => rfl

/-- Positions that are held already are not changed by setting them. -/
theorem setAll_eq_self {slots : Slots} {l : List (VarId × Nat)}
    (held : ∀ e ∈ l, slots.get? e.1 = some e.2) : slots.setAll l = slots := by
  induction l with
  | nil => rfl
  | cons e rest ih =>
    rw [List.forall_mem_cons] at held
    rw [setAll, set_eq_self held.1, ih held.2]

theorem Same.refl (s : Slots) : Same s s := fun _ => rfl

theorem Same.symm {s t : Slots} (h : Same s t) : Same t s := fun id => (h id).symm

theorem Same.trans {s t u : Slots} (h : Same s t) (k : Same t u) : Same s u :=
  fun id => (h id).trans (k id)

theorem Same.agreeOn {s t : Slots} (h : Same s t) (ids : List VarId) : AgreeOn ids s t :=
  fun id _ => h id

theorem Same.set {s t : Slots} (h : Same s t) (id : VarId) (position : Option Nat) :
    Same (s.set id position) (t.set id position) := fun other => by
  rw [get?_set, get?_set, h other]

/-- Giving a variable its former position back undoes a setting. -/
theorem set_get? (s : Slots) (id : VarId) (p : Option Nat) :
    Same ((s.set id p).set id (s.get? id)) s := fun other => by
  simp only [get?_set]
  split
  next h => rw [h]
  next => rfl

theorem AgreeOn.set {ids : List VarId} {s t : Slots} {id : VarId} {position : Option Nat}
    (h : ∀ other ∈ ids, other ≠ id → s.get? other = t.get? other) :
    AgreeOn ids (s.set id position) (t.set id position) := by
  intro other ho
  rw [get?_set, get?_set]
  split
  next => rfl
  next ne => exact h other ho (Ne.symm ne)

theorem AgreeOn.setAll {ids : List VarId} {s t : Slots} {l : List (VarId × Nat)}
    (h : ∀ id ∈ ids, id ∉ l.map (·.1) → s.get? id = t.get? id) :
    AgreeOn ids (s.setAll l) (t.setAll l) := by
  induction l generalizing s t with
  | nil => exact fun id hid => h id hid (by simp)
  | cons e rest ih =>
    apply ih
    intro id hid hrest
    rw [get?_set, get?_set]
    split
    next => rfl
    next ne =>
      apply h id hid
      rw [List.map_cons, List.mem_cons, not_or]
      exact ⟨Ne.symm ne, hrest⟩

/-! ## Slots and worlds -/

theorem Holds.set {slots : Slots} {ids : List VarId} {x : World} {id : VarId} {position : Nat}
    (h : ∀ other ∈ ids, other ≠ id → slots.get? other = some (x other)) :
    (slots.set id (some position)).Holds ids (Function.update x id position) := by
  intro other ho
  rw [get?_set]
  split
  next e => rw [← e, Function.update_self]
  next ne => rw [h other ho (Ne.symm ne), Function.update_of_ne (Ne.symm ne)]

/-- Setting the same entries keeps slots and worlds together. -/
theorem holds_setAll {slots : Slots} {ids : List VarId} {x : World} {l : List (VarId × Nat)}
    (h : ∀ id ∈ ids, id ∉ l.map (·.1) → slots.get? id = some (x id)) :
    (slots.setAll l).Holds ids (x.setAll l) := by
  induction l generalizing slots x with
  | nil => exact fun id hid => h id hid (by simp)
  | cons e rest ih =>
    apply ih
    intro id hid hrest
    rw [get?_set]
    split
    next k => rw [← k, Function.update_self]
    next ne =>
      rw [Function.update_of_ne (Ne.symm ne)]
      apply h id hid
      rw [List.map_cons, List.mem_cons, not_or]
      exact ⟨Ne.symm ne, hrest⟩

theorem Within.world_lt {vars : List Variable} {slots : Slots} (h : slots.Within vars)
    (pos : ∀ v ∈ vars, 0 < v.card) : slots.world.InRange vars := by
  intro v hv
  unfold world
  cases hp : slots.get? v.id with
  | none => exact pos v hv
  | some p => exact h v hv p hp

theorem Within.set {vars : List Variable} {slots : Slots} (h : slots.Within vars)
    (inj : ∀ u ∈ vars, ∀ v ∈ vars, u.id = v.id → u = v) {v : Variable} (hv : v ∈ vars)
    {position : Nat} (hp : position < v.card) : (slots.set v.id (some position)).Within vars := by
  intro u hu q hq
  rw [get?_set] at hq
  split at hq
  next e => rw [inj u hu v hv e.symm]; cases hq; exact hp
  next => exact h u hu q hq

theorem Same.within {vars : List Variable} {s t : Slots} (h : Same s t) (k : s.Within vars) :
    t.Within vars := fun v hv p hp => k v hv p ((h v.id).trans hp)

end Slots

namespace World

/-- A world has the positions of the evidence. -/
def Agrees (evidence : Slots) (x : World) : Prop := ∀ e ∈ evidence.assigned, x e.1 = e.2

instance (evidence : Slots) (x : World) : Decidable (x.Agrees evidence) :=
  inferInstanceAs (Decidable (∀ e ∈ evidence.assigned, x e.1 = e.2))

theorem agrees_iff {evidence : Slots} {x : World} :
    x.Agrees evidence ↔ ∀ id p, evidence.get? id = some p → x id = p :=
  ⟨fun h id p hp => h (id, p) (Slots.mem_assigned.2 hp),
    fun h e he => h e.1 e.2 (Slots.mem_assigned.1 he)⟩

theorem agrees_world (evidence : Slots) : evidence.world.Agrees evidence := by
  rw [agrees_iff]
  intro id p hp
  rw [Slots.world, hp]
  rfl

theorem Agrees.update {evidence : Slots} {x : World} (h : x.Agrees evidence) {id : VarId}
    (free : evidence.isAssigned id = false) (p : Nat) :
    Agrees evidence (Function.update x id p) := by
  rw [agrees_iff] at h ⊢
  intro other q hq
  have ne : other ≠ id := fun e => by
    rw [Slots.isAssigned_eq_false, ← e, hq] at free
    cases free
  rw [Function.update_of_ne ne]
  exact h other q hq

theorem agrees_update {evidence : Slots} {x : World} {id : VarId}
    (free : evidence.isAssigned id = false) (p : Nat) :
    Agrees evidence (Function.update x id p) ↔ Agrees evidence x := by
  refine ⟨fun k => ?_, fun k => k.update free p⟩
  have back := k.update free (x id)
  rwa [Function.update_idem, Function.update_eq_self] at back

/-- A world has the positions of evidence with one more observation if it has those of the evidence and
the observed one. -/
theorem agrees_of_added {s t : Slots} {id : VarId} {p : Nat} (free : s.get? id = none)
    (added : t.Same (s.set id (some p))) {x : World} : Agrees t x ↔ Agrees s x ∧ x id = p := by
  simp only [agrees_iff, added _, Slots.get?_set]
  constructor
  · refine fun agrees => ⟨fun other q hq => agrees other q ?_, agrees id p (if_pos rfl)⟩
    rw [if_neg fun e => ?_, hq]
    rw [e, hq] at free
    cases free
  · rintro ⟨agrees, here⟩ other q hq
    split at hq
    next e =>
      cases hq
      exact e ▸ here
    next => exact agrees other q hq

end World

end Counsel
