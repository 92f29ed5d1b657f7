/-
Named assignments of the variables of one kind: a state gives every chance variable a value, a joint
action every decision (`Diagram.Assigns`). They have an index in the layout of their kind
(`Lays.reads`), which lists the assignments of that kind (`Lays.mem_assignments`); they are
what slots with positions for these variables stand for (`exists_assignmentOf`); and a state together
with a joint action names every variable (`exists_slotsOf_merge`).
-/
import Counsel.Oracle
import Counsel.Proofs.Diagram.Observations
import Counsel.Proofs.Inference.Choice

namespace Counsel

open Outcome

/-- Where every variable has a value of its domain, so has it a position. -/
theorem Scope.exists_slotsOf {vars : List Variable} {a : Assignment}
    (nodup : (vars.map (·.id)).Nodup)
    (known : ∀ v ∈ vars, ∃ value ∈ v.domain, a.get? v.name = some value) :
    ∃ slots, Scope.slotsOf vars a = .ok slots ∧ ∀ v ∈ vars, slots.isAssigned v.id = true := by
  obtain ⟨positions, made⟩ : ∃ positions, vars.mapM (namedPosition a) = .ok positions := by
    refine exists_mapM fun v hv => ?_
    obtain ⟨value, mem, held⟩ := known v hv
    obtain ⟨p, found⟩ := Option.isSome_iff_exists.1 ((List.findIdx?_isSome (p := (· == value))).trans
      (List.any_eq_true.2 ⟨value, mem, beq_self_eq_true value⟩))
    refine ⟨p, ?_⟩
    rw [namedPosition, held]
    simp only [Variable.position?, found]
  have length := (mapM_eq_ok.1 made).length_eq
  refine ⟨_, by rw [slotsOf, made]; rfl, fun v hv => Slots.isAssigned_iff.2 ?_⟩
  obtain ⟨i, hi⟩ := List.mem_iff_getElem?.1 hv
  obtain ⟨p, hp, -⟩ := forall₂_getElem? (mapM_eq_ok.1 made) hi
  refine ⟨p, Slots.get?_setAll_of_mem _ ?_ (List.mem_of_getElem? (i := i) ?_)⟩
  · rwa [List.map_fst_zip (by simp [length])]
  · rw [List.getElem?_zip_eq_some, List.getElem?_map, hi]
    exact ⟨rfl, hp⟩

namespace Diagram

variable {α : Type} [Scalar α] {d : Diagram α} {kind : Kind} {a : Assignment}

/-- A value for each variable of a kind, and nothing else. -/
structure Assigns (d : Diagram α) (kind : Kind) (a : Assignment) : Prop where
  valued : ∀ v ∈ d.vars, v.kind = kind → ∃ value ∈ v.domain, a.get? v.name = some value
  only : ∀ name value, a.get? name = some value → ∃ v ∈ d.vars, v.kind = kind ∧ v.name = name

omit [Scalar α] in
/-- What is assigned is in the domains. -/
theorem Assigns.known (assigns : d.Assigns kind a) {name : String} {value : Value}
    (held : a.get? name = some value) :
    ∃ v ∈ d.vars, v.kind = kind ∧ v.name = name ∧ value ∈ v.domain := by
  obtain ⟨v, hv, of_kind, rfl⟩ := assigns.only name value held
  obtain ⟨value', mem, held'⟩ := assigns.valued v hv of_kind
  cases held.symm.trans held'
  exact ⟨v, hv, of_kind, rfl, mem⟩

/-- Variables of other kinds get nothing. -/
theorem Assigns.get?_of_ne (h : d.WellFormed) (assigns : d.Assigns kind a) {v : Variable}
    (hv : v ∈ d.vars) (other : v.kind ≠ kind) : a.get? v.name = none := by
  rcases held : a.get? v.name with _ | value
  · rfl
  · obtain ⟨u, hu, of_kind, same, -⟩ := assigns.known held
    rw [List.inj_on_of_nodup_map h.named hu hv same] at of_kind
    exact absurd of_kind other

/-! ## Layouts -/

/-- The layout of the variables of a kind. -/
def Lays (d : Diagram α) (kind : Kind) (layout : Layout) : Prop :=
  Layout.ofVariables (d.pick (d.orderOf kind)) = .ok layout

variable {layout : Layout}

theorem Lays.mem_places (h : d.WellFormed) (lays : d.Lays kind layout) {place : Place} :
    place ∈ layout.places ↔ ∃ v ∈ d.vars, v.kind = kind ∧ (v.name, v.domain) = place := by
  rw [Layout.ofPlaces_eq_ok lays, List.mem_map]
  constructor
  · rintro ⟨v, hv, rfl⟩
    obtain ⟨hv, hid⟩ := h.mem_pick.1 hv
    obtain ⟨u, hu, e, of_kind⟩ := h.mem_orderOf.1 hid
    exact ⟨v, hv, h.inj u hu v hv e ▸ of_kind, rfl⟩
  · rintro ⟨v, hv, of_kind, rfl⟩
    exact ⟨v, h.mem_pick.2 ⟨hv, h.mem_orderOf.2 ⟨v, hv, rfl, of_kind⟩⟩, rfl⟩

theorem Lays.distinct (h : d.WellFormed) (lays : d.Lays kind layout) : layout.Distinct := by
  intro place hp
  obtain ⟨v, hv, -, rfl⟩ := (lays.mem_places h).1 hp
  exact (h.domains v hv).2

/-- An assignment of the variables of a kind has an index. -/
theorem Lays.reads (h : d.WellFormed) (lays : d.Lays kind layout) (assigns : d.Assigns kind a) :
    layout.Reads a := by
  refine Layout.reads_iff.2 fun place hp => ?_
  obtain ⟨v, hv, of_kind, rfl⟩ := (lays.mem_places h).1 hp
  exact assigns.valued v hv of_kind

/-- The assignments of a layout are assignments of its variables. -/
theorem Lays.assigns_entriesAt (h : d.WellFormed) (lays : d.Lays kind layout) (i : Nat) :
    d.Assigns kind (NameMap.ofList (layout.entriesAt i)) where
  valued v hv of_kind := by
    obtain ⟨digit, -, value, there, held⟩ := forall₂_mem (layout.positions_of_index i)
      ((lays.mem_places h).2 ⟨v, hv, of_kind, rfl⟩)
    exact ⟨value, List.mem_of_getElem? there, held⟩
  only name value held := by
    have named : name ∈ (layout.entriesAt i).map (·.1) := by
      by_contra other
      rw [NameMap.get?_ofList_eq_none.2 other] at held
      cases held
    rw [Layout.entriesAt_eq, Layout.names_entriesOf (MixedRadix.decode_inRange layout.base_pos i)]
      at named
    obtain ⟨place, hp, rfl⟩ := List.mem_map.1 named
    obtain ⟨v, hv, of_kind, rfl⟩ := (lays.mem_places h).1 hp
    exact ⟨v, hv, of_kind, rfl⟩

theorem Lays.covers (h : d.WellFormed) (lays : d.Lays kind layout) (assigns : d.Assigns kind a) :
    layout.Covers a := by
  intro name value held
  obtain ⟨v, hv, of_kind, rfl⟩ := assigns.only name value held
  exact List.mem_map.2 ⟨_, (lays.mem_places h).2 ⟨v, hv, of_kind, rfl⟩, rfl⟩

/-- Nothing is assigned to names that are not in the layout. -/
theorem Lays.get?_of_notMem (h : d.WellFormed) (lays : d.Lays kind layout)
    (assigns : d.Assigns kind a) {name : String} (out : name ∉ layout.names) : a.get? name = none := by
  rcases held : a.get? name with _ | value
  · rfl
  · exact absurd (lays.covers h assigns name value held) out

/-- A layout lists the assignments of its variables. -/
theorem Lays.mem_assignments (h : d.WellFormed) (lays : d.Lays kind layout) :
    a ∈ layout.assignments ↔ d.Assigns kind a := by
  rw [Layout.assignments_eq]
  constructor
  · intro mem
    obtain ⟨i, -, rfl⟩ := List.mem_map.1 mem
    exact lays.assigns_entriesAt h i
  · intro assigns
    obtain ⟨i, hi⟩ := lays.reads h assigns
    have lt := Layout.indexOf_lt hi
    have listed := lays.assigns_entriesAt h i
    have agree := Layout.agree_of_indexOf (Layout.indexOf_assignmentAt (lays.distinct h) lt) hi
    refine List.mem_map.2 ⟨i, List.mem_range.2 lt, NameMap.ext_get? fun name => ?_⟩
    by_cases placed : name ∈ layout.names
    · exact agree name placed
    · rw [lays.get?_of_notMem h listed placed, lays.get?_of_notMem h assigns placed]

theorem Lays.exists_assignmentAt (h : d.WellFormed) (lays : d.Lays kind layout) {i : Nat}
    (lt : i < layout.size) : ∃ a, layout.assignmentAt i = .ok a ∧ d.Assigns kind a := by
  obtain ⟨a, mem, made⟩ := Layout.exists_assignmentAt lt
  exact ⟨a, made, (lays.mem_assignments h).1 mem⟩

/-- What a layout leaves of an assignment is what its variables get. -/
theorem Lays.restrict_eq (h : d.WellFormed) (lays : d.Lays kind layout)
    (assigns : d.Assigns kind a) : layout.restrict a = a := by
  refine NameMap.ext_get? fun name => (NameMap.get?_restrict ..).trans ?_
  split
  next => rfl
  next out =>
    rw [Layout.contains, List.contains_iff_mem] at out
    exact (lays.get?_of_notMem h assigns out).symm

theorem position?_of_getElem? (h : d.WellFormed) {v : Variable} (hv : v ∈ d.vars) {p : Nat}
    {value : Value} (held : v.domain[p]? = some value) : v.position? value = some p :=
  Layout.findIdx?_of_getElem? (h.domains v hv).2 held

/-- An assignment of known values to known names stands for positions. -/
theorem exists_slotsOf (h : d.WellFormed)
    (known : ∀ name value, a.get? name = some value →
      ∃ v ∈ d.vars, v.name = name ∧ value ∈ v.domain) : ∃ slots, d.slotsOf a = .ok slots := by
  obtain ⟨entries, made⟩ : ∃ entries, a.entries.mapM d.namedSlot = .ok entries := by
    refine exists_mapM fun ⟨name, value⟩ mem => ?_
    obtain ⟨v, hv, rfl, hd⟩ := known name value (NameMap.get?_eq_some.2 mem)
    obtain ⟨p, hp⟩ := List.mem_iff_getElem?.1 hd
    exact ⟨(v.id, p), h.namedSlot_eq_ok.2 ⟨v, hv, rfl, rfl, position?_of_getElem? h hv hp⟩⟩
  exact ⟨_, by rw [slotsOf, made]; rfl⟩

/-- What has positions is about values in the domains of the named variables. -/
theorem exists_of_slotsOf (h : d.WellFormed) {slots : Slots} (made : d.slotsOf a = .ok slots)
    {name : String} {value : Value} (held : a.get? name = some value) :
    ∃ v ∈ d.vars, v.name = name ∧ value ∈ v.domain := by
  obtain ⟨_, -, steps⟩ := h.slotsOf_eq_ok made
  obtain ⟨_, -, v, hv, named, -, found⟩ := forall₂_mem steps (NameMap.get?_eq_some.1 held)
  exact ⟨v, hv, named, List.mem_of_getElem? (Layout.getElem?_of_findIdx? found)⟩

/-- The positions of named values. -/
theorem get?_slotsOf_of_getElem? (h : d.WellFormed) {slots : Slots} (made : d.slotsOf a = .ok slots)
    {v : Variable} (hv : v ∈ d.vars) {p : Nat} {value : Value} (there : v.domain[p]? = some value)
    (held : a.get? v.name = some value) : slots.get? v.id = some p :=
  (h.get?_slotsOf made).2 ⟨v, hv, rfl, value, held, position?_of_getElem? h hv there⟩

/-- The named value of a variable is the one at its position. -/
theorem namedValue_eq_ok (h : d.WellFormed) {slots : Slots} {id : VarId} {entry : String × Value} :
    d.namedValue slots id = .ok entry ↔ ∃ v ∈ d.vars, v.id = id ∧ v.name = entry.1 ∧
      ∃ p, slots.get? id = some p ∧ v.domain[p]? = some entry.2 := by
  unfold namedValue
  constructor
  · intro made
    rcases found : d.byId? id with _ | v
    · rw [found] at made
      cases made
    · rw [found] at made
      obtain ⟨hv, rfl⟩ := h.byId?_eq_some.1 found
      rcases held : (slots.get? v.id).bind (v.domain[·]?) with _ | value
      · simp only [held] at made
        cases made
      · simp only [held] at made
        cases made
        obtain ⟨p, hp, there⟩ := Option.bind_eq_some_iff.1 held
        exact ⟨v, hv, rfl, rfl, p, hp, there⟩
  · rintro ⟨v, hv, rfl, named, p, hp, there⟩
    rw [h.byId?_eq_some.2 ⟨hv, rfl⟩]
    simp only [hp, Option.bind_some, there, named]

/-- Slots with a position for each variable of a kind stand for an assignment of that kind. -/
theorem exists_assignmentOf (h : d.WellFormed) {slots : Slots} (within : slots.Within d.vars)
    {ids : List VarId} (nodup : ids.Nodup)
    (listed : ∀ id, id ∈ ids ↔ ∃ v ∈ d.vars, v.id = id ∧ v.kind = kind)
    (held : ∀ v ∈ d.vars, v.kind = kind → slots.isAssigned v.id = true) :
    ∃ a, d.assignmentOf slots ids = .ok a ∧ d.Assigns kind a ∧ ∀ v ∈ d.vars, v.kind = kind →
      ∃ p value, slots.get? v.id = some p ∧ v.domain[p]? = some value ∧
        a.get? v.name = some value := by
  obtain ⟨entries, made⟩ : ∃ entries, ids.mapM (d.namedValue slots) = .ok entries := by
    refine exists_mapM fun id hid => ?_
    obtain ⟨v, hv, rfl, of_kind⟩ := (listed id).1 hid
    obtain ⟨p, hp⟩ := Slots.isAssigned_iff.1 (held v hv of_kind)
    have lt : p < v.domain.length := within v hv p hp
    exact ⟨(v.name, v.domain[p]), (namedValue_eq_ok h).2
      ⟨v, hv, rfl, rfl, p, hp, List.getElem?_eq_getElem lt⟩⟩
  have each := mapM_eq_ok.1 made
  -- variables have names of their own, so no entry hides another
  have names : (entries.map (·.1)).Nodup := by
    refine forall₂_nodup (f := fun id => id) each (fun id e id' e' read read' same => ?_)
      (by simpa using nodup)
    obtain ⟨v, hv, rfl, named, -⟩ := (namedValue_eq_ok h).1 read
    obtain ⟨v', hv', rfl, named', -⟩ := (namedValue_eq_ok h).1 read'
    rw [List.inj_on_of_nodup_map h.named hv hv' (named.trans (same.trans named'.symm))]
  have valued : ∀ v ∈ d.vars, v.kind = kind → ∃ p value, slots.get? v.id = some p ∧
      v.domain[p]? = some value ∧ (NameMap.ofList entries).get? v.name = some value := by
    intro v hv of_kind
    obtain ⟨e, he, read⟩ := forall₂_mem each ((listed v.id).2 ⟨v, hv, rfl, of_kind⟩)
    obtain ⟨u, hu, same, named, p, hp, there⟩ := (namedValue_eq_ok h).1 read
    obtain rfl := h.inj u hu v hv same
    exact ⟨p, e.2, hp, there, NameMap.get?_ofList names (named ▸ he)⟩
  refine ⟨_, by rw [assignmentOf, made]; rfl, ⟨fun v hv of_kind => ?_, fun name value found => ?_⟩,
    valued⟩
  · obtain ⟨p, value, -, there, found⟩ := valued v hv of_kind
    exact ⟨value, List.mem_of_getElem? there, found⟩
  · have listed_name : name ∈ entries.map (·.1) := by
      by_contra other
      rw [NameMap.get?_ofList_eq_none.2 other] at found
      cases found
    obtain ⟨e, he, rfl⟩ := List.mem_map.1 listed_name
    obtain ⟨id, hid, read⟩ := forall₂_right_mem each he
    obtain ⟨v, hv, rfl, named, -⟩ := (namedValue_eq_ok h).1 read
    obtain ⟨u, hu, same, of_kind⟩ := (listed v.id).1 hid
    exact ⟨v, hv, h.inj u hu v hv same ▸ of_kind, named⟩

/-! ## States and joint actions -/

theorem Assigns.exists_slotsOf (h : d.WellFormed) (assigns : d.Assigns kind a) :
    ∃ slots, d.slotsOf a = .ok slots :=
  Diagram.exists_slotsOf h fun name value held => by
    obtain ⟨v, hv, -, named, mem⟩ := assigns.known held
    exact ⟨v, hv, named, mem⟩

section Merge

variable {state action : Assignment}

theorem get?_merge_chance (h : d.WellFormed) (action_of : d.Assigns .decision action) {v : Variable}
    (hv : v ∈ d.vars) (chance : v.kind = .chance) :
    (Assignment.merge state action).get? v.name = state.get? v.name := by
  refine (NameMap.get?_union ..).trans ?_
  rw [action_of.get?_of_ne h hv (by rw [chance]; decide), Option.none_or]

/-- A state and a joint action together name every variable. -/
theorem known_merge (h : d.WellFormed) (state_of : d.Assigns .chance state)
    (action_of : d.Assigns .decision action) {v : Variable} (hv : v ∈ d.vars) :
    ∃ value ∈ v.domain, (Assignment.merge state action).get? v.name = some value := by
  cases of_kind : v.kind with
  | chance =>
    rw [get?_merge_chance h action_of hv of_kind]
    exact state_of.valued v hv of_kind
  | decision =>
    obtain ⟨value, mem, held⟩ := action_of.valued v hv of_kind
    refine ⟨value, mem, (NameMap.get?_union ..).trans ?_⟩
    rw [held, Option.some_or]

theorem exists_slotsOf_merge (h : d.WellFormed) (state_of : d.Assigns .chance state)
    (action_of : d.Assigns .decision action) :
    ∃ slots, d.slotsOf (Assignment.merge state action) = .ok slots ∧
      ∀ v ∈ d.vars, slots.isAssigned v.id = true := by
  obtain ⟨slots, made⟩ := Diagram.exists_slotsOf h fun name value held => by
    have split : (action.get? name).or (state.get? name) = some value :=
      (NameMap.get?_union ..).symm.trans held
    rcases Option.or_eq_some_iff.1 split with held | ⟨-, held⟩
    · obtain ⟨v, hv, -, named, mem⟩ := action_of.known held
      exact ⟨v, hv, named, mem⟩
    · obtain ⟨v, hv, -, named, mem⟩ := state_of.known held
      exact ⟨v, hv, named, mem⟩
  refine ⟨slots, made, fun v hv => (h.isAssigned_slotsOf made hv).2 ?_⟩
  obtain ⟨value, -, held⟩ := known_merge h state_of action_of hv
  exact Option.isSome_iff_exists.2 ⟨value, held⟩

/-- The chance variables have the positions that the state alone gives them. -/
theorem get?_slotsOf_merge (h : d.WellFormed) (action_of : d.Assigns .decision action)
    {slots slots' : Slots} (made : d.slotsOf state = .ok slots)
    (made' : d.slotsOf (Assignment.merge state action) = .ok slots') {v : Variable}
    (hv : v ∈ d.vars) (chance : v.kind = .chance) : slots'.get? v.id = slots.get? v.id := by
  refine Option.ext fun p => ?_
  rw [h.get?_slotsOf made, h.get?_slotsOf made']
  refine exists_congr fun u => and_congr_right fun hu => and_congr_right fun same => ?_
  obtain rfl := h.inj u hu v hv same
  rw [get?_merge_chance h action_of hv chance]

end Merge

/-! ## Utilities -/

/-- The utility table holds a number for every assignment that names all variables. -/
theorem exists_utilityAt (h : d.WellFormed)
    (known : ∀ v ∈ d.vars, ∃ value ∈ v.domain, a.get? v.name = some value) :
    ∃ u, d.utilityAt a = .ok u := by
  have built := h.built_utility.1
  obtain ⟨slots, made, assigned⟩ := Scope.exists_slotsOf d.utility.scope.nodup_ids
    fun v hv => known v (built.mem_vars v hv)
  have within := Scope.within_slotsOf h.inj built.mem_vars made
  have holds : slots.Holds d.utility.scope.ids slots.world := by
    intro id hid
    obtain ⟨v, hv, rfl⟩ := Scope.mem_ids.1 hid
    obtain ⟨p, hp⟩ := Slots.isAssigned_iff.1 (assigned v hv)
    rw [hp, Slots.world, hp, Option.getD_some]
  refine ⟨(d.utility.cellIn slots.world).1, ?_⟩
  rw [utilityAt, Factor.valueAt, made, ok_bind, Factor.value,
    Factor.cell_of_holds h.inj built (h.world_inRange within) holds]
  rfl

end Diagram

end Counsel
