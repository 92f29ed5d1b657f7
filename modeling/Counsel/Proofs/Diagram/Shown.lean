/-
Worlds behind assignments. An assignment shows some variables at their positions in a world
(`Assignment.Shows`); then its utility is the value of the utility table in the world
(`utilityAt_of_shows`), and its index in a layout is that of the positions (`Lays.indexOf_of_shows`). A
state and a joint action together show a world that differs from the world of the state in the
decisions only (`exists_shown`).
-/
import Counsel.Proofs.Diagram.Naming
import Counsel.Proofs.Inference.Foremost

namespace Counsel

open Outcome

/-- An assignment gives some variables the values at their positions in a world. -/
def Assignment.Shows (a : Assignment) (vars : List Variable) (x : World) : Prop :=
  ∀ v ∈ vars, Scope.namedPosition a v = .ok (x v.id)

variable {α : Type} [Scalar α] {a state action : Assignment} {vars : List Variable} {x : World}

theorem Assignment.Shows.inRange (shows_it : a.Shows vars x) : x.InRange vars := fun v hv =>
  Scope.namedPosition_lt (shows_it v hv)

/-- The positions that an assignment gives variables that it shows are those of the world. -/
theorem Assignment.Shows.exists_slotsOf (shows_it : a.Shows vars x) (nodup : (vars.map (·.id)).Nodup) :
    ∃ slots, Scope.slotsOf vars a = .ok slots ∧ slots.Holds (vars.map (·.id)) x := by
  refine ⟨Slots.empty.setAll ((vars.map (·.id)).zip (vars.map fun v => x v.id)), ?_, fun id hid => ?_⟩
  · rw [Scope.slotsOf, mapM_eq_ok_map fun v hv => shows_it v hv]
    rfl
  · obtain ⟨v, hv, rfl⟩ := List.mem_map.1 hid
    refine Slots.get?_setAll_of_mem _ ?_ ?_
    · rwa [List.map_fst_zip (by simp)]
    · rw [List.zip_map']
      exact List.mem_map_of_mem hv

omit [Scalar α] in
/-- The index of an assignment in a layout of variables that it shows. -/
theorem Layout.indexOf_of_shows {layout : Layout}
    (places : layout.places = vars.map fun v => (v.name, v.domain)) (shown : a.Shows vars x) :
    layout.indexOf a = .ok (MixedRadix.encode (Scope.bases vars) (vars.map fun v => x v.id)) := by
  refine Layout.indexOf_eq_ok.2 ⟨vars.map fun v => x v.id, ?_, ?_⟩
  · rw [places, List.forall₂_map_left_iff, List.forall₂_map_right_iff, List.forall₂_same]
    intro v hv
    exact Layout.position_eq_ok.2 (Scope.namedPosition_eq_ok.1 (shown v hv))
  · rw [places, Layout.bases, List.map_map]
    rfl

namespace Diagram

variable {d : Diagram α} {kind : Kind} {layout : Layout}

/-- An assignment shows the variables that it gives positions, in the world of these positions. -/
theorem shows_slotsOf (h : d.WellFormed) {slots : Slots} (made : d.slotsOf a = .ok slots)
    (assigned : ∀ v ∈ vars, v ∈ d.vars ∧ slots.isAssigned v.id = true) : a.Shows vars slots.world := by
  intro v hv
  obtain ⟨hv, assigned⟩ := assigned v hv
  obtain ⟨p, held⟩ := Slots.isAssigned_iff.1 assigned
  obtain ⟨u, hu, same, value, known, found⟩ := (h.get?_slotsOf made).1 held
  obtain rfl := h.inj u hu v hv same
  rw [Slots.world, held]
  exact Scope.namedPosition_eq_ok.2 ⟨value, known, found⟩

/-- The utility of an assignment that shows every variable. -/
theorem utilityAt_of_shows (h : d.WellFormed) (shows_it : a.Shows d.vars x) :
    d.utilityAt a = .ok (d.utility.valueIn x) := by
  have built := h.built_utility.1
  have shows_scope : a.Shows d.utility.scope.vars x := fun v hv => shows_it v (built.mem_vars v hv)
  obtain ⟨slots, made, holds⟩ := shows_scope.exists_slotsOf d.utility.scope.nodup_ids
  rw [utilityAt, Factor.valueAt, made, ok_bind, Factor.value,
    Factor.cell_of_holds h.inj built shows_it.inRange holds]
  rfl

omit [Scalar α] in
/-- The index of an assignment that shows the variables of a layout. -/
theorem Lays.indexOf_of_shows (lays : d.Lays kind layout)
    (shows_it : a.Shows (d.pick (d.orderOf kind)) x) :
    layout.indexOf a = .ok (x.indexIn (d.pick (d.orderOf kind))) :=
  Layout.indexOf_of_shows (Layout.ofPlaces_eq_ok lays) shows_it

/-- The assignments of a layout are those of its indices. -/
theorem Lays.assignmentAt_iff (h : d.WellFormed) (lays : d.Lays kind layout) {i : Nat} :
    layout.assignmentAt i = .ok a ↔ d.Assigns kind a ∧ layout.indexOf a = .ok i := by
  constructor
  · intro made
    rw [Layout.assignmentAt] at made
    split at made
    next lt =>
      cases made
      exact ⟨lays.assigns_entriesAt h i, Layout.indexOf_assignmentAt (lays.distinct h) lt⟩
    next => cases made
  · rintro ⟨assigns, found⟩
    have lt := Layout.indexOf_lt found
    rw [Layout.assignmentAt_of_lt lt, (lays.covers h (lays.assigns_entriesAt h i)).eq_of_indexOf
      (lays.covers h assigns) (Layout.indexOf_assignmentAt (lays.distinct h) lt) found]

/-- A joint action shows the decisions in a world that is otherwise a given one. -/
theorem Assigns.exists_shown (h : d.WellFormed) (action_of : d.Assigns .decision action) (x : World) :
    ∃ z, World.Varies (d.pick d.decisionOrder) x z ∧ action.Shows (d.pick d.decisionOrder) z := by
  obtain ⟨slots, made⟩ := action_of.exists_slotsOf h
  have shown : action.Shows (d.pick d.decisionOrder) fun id => (slots.get? id).getD (x id) := by
    intro v hv
    obtain ⟨hv, listed⟩ := h.mem_pick.1 hv
    obtain ⟨value, mem, held⟩ := action_of.valued v hv ((mem_decisionOrder h hv).1 listed)
    obtain ⟨p, there⟩ := List.mem_iff_getElem?.1 mem
    refine Scope.namedPosition_eq_ok.2 ⟨value, held, ?_⟩
    show v.position? value = some ((slots.get? v.id).getD (x v.id))
    rw [position?_of_getElem? h hv there, get?_slotsOf_of_getElem? h made hv there held,
      Option.getD_some]
  refine ⟨_, ⟨fun id hid => ?_, shown.inRange⟩, shown⟩
  rcases held : slots.get? id with _ | p
  · rfl
  · obtain ⟨v, hv, rfl, value, known, -⟩ := (h.get?_slotsOf made).1 held
    obtain ⟨u, hu, decision, named⟩ := action_of.only v.name value known
    rw [List.inj_on_of_nodup_map h.named hu hv named] at decision
    exact absurd (List.mem_map_of_mem
      (h.mem_pick.2 ⟨hv, (mem_decisionOrder h hv).2 decision⟩)) hid

/-- A state and a joint action together show every variable. -/
theorem shows_merge (h : d.WellFormed) (state_of : state.Shows d.chanceVars x)
    (action_of : d.Assigns .decision action) {z : World}
    (varies : World.Varies (d.pick d.decisionOrder) x z)
    (shown : action.Shows (d.pick d.decisionOrder) z) :
    (Assignment.merge state action).Shows d.vars z := by
  intro v hv
  cases kind : v.kind with
  | chance =>
    have free : v.id ∉ (d.pick d.decisionOrder).map (·.id) := by
      rintro mem
      obtain ⟨u, hu, same⟩ := List.mem_map.1 mem
      obtain ⟨hu, listed⟩ := h.mem_pick.1 hu
      rw [h.inj u hu v hv same, mem_decisionOrder h hv, kind] at listed
      cases listed
    rw [varies.kept v.id free, ← state_of v (mem_chanceVars.2 ⟨hv, kind⟩), Scope.namedPosition,
      Scope.namedPosition, get?_merge_chance h action_of hv kind]
  | decision =>
    obtain ⟨value, held, found⟩ := Scope.namedPosition_eq_ok.1
      (shown v (h.mem_pick.2 ⟨hv, (mem_decisionOrder h hv).2 kind⟩))
    refine Scope.namedPosition_eq_ok.2 ⟨value, (NameMap.get?_union ..).trans ?_, found⟩
    rw [held, Option.some_or]

/-- A state that a layout reads shows the world of what the layout leaves of it. -/
theorem Lays.shows_of_reads (h : d.WellFormed) (lays : d.Lays .chance layout)
    (reads : layout.Reads state) :
    d.Assigns .chance (layout.restrict state) ∧ ∃ slots, d.slotsOf (layout.restrict state) = .ok slots ∧
      (layout.restrict state).Shows d.chanceVars slots.world ∧ state.Shows d.chanceVars slots.world := by
  have kept : ∀ v ∈ d.vars, v.kind = .chance →
      (layout.restrict state).get? v.name = state.get? v.name := fun v hv chance =>
    Layout.agree_restrict state v.name
      (List.mem_map_of_mem ((lays.mem_places h).2 ⟨v, hv, chance, rfl⟩))
  have assigns : d.Assigns .chance (layout.restrict state) := by
    refine ⟨fun v hv chance => ?_, fun name value held => ?_⟩
    · rw [kept v hv chance]
      exact Layout.reads_iff.1 reads _ ((lays.mem_places h).2 ⟨v, hv, chance, rfl⟩)
    · obtain ⟨place, hp, rfl⟩ := List.mem_map.1 (Layout.covers_restrict state name value held)
      obtain ⟨v, hv, chance, rfl⟩ := (lays.mem_places h).1 hp
      exact ⟨v, hv, chance, rfl⟩
  obtain ⟨slots, made⟩ := assigns.exists_slotsOf h
  have shown : (layout.restrict state).Shows d.chanceVars slots.world :=
    shows_slotsOf h made fun v hv => by
      obtain ⟨hv, chance⟩ := mem_chanceVars.1 hv
      obtain ⟨value, -, held⟩ := assigns.valued v hv chance
      exact ⟨hv, (h.isAssigned_slotsOf made hv).2 (Option.isSome_iff_exists.2 ⟨value, held⟩)⟩
  refine ⟨assigns, slots, made, shown, fun v hv => ?_⟩
  obtain ⟨hm, chance⟩ := mem_chanceVars.1 hv
  rw [← shown v hv, Scope.namedPosition, Scope.namedPosition, kept v hm chance]

end Diagram

end Counsel
