/-
The environment of a diagram. A draw selects a position with a positive probability (`Row.pick_pos`), so
drawing the chance variables, parents first, keeps every table that was drawn from positive
(`drawAll_drawn`). A trial therefore begins in a possible state (`reset_yields`), and every joint action
has a reward there (`step_yields`).
-/
import Counsel.Environment
import Counsel.Proofs.Diagram.Likely
import Counsel.Proofs.Step

namespace Counsel

open Outcome World

/-! ## Draws -/

theorem RandomSource.fraction_nonneg {γ : Type} [RandomSource γ] (source : γ) :
    (0 : Rat) ≤ (RandomSource.fraction source : Rat × γ).1 :=
  div_nonneg (Nat.cast_nonneg _) (Nat.cast_nonneg _)

theorem RandomSource.fraction_lt_one {γ : Type} [RandomSource γ] (source : γ) :
    (RandomSource.fraction source : Rat × γ).1 < 1 := by
  have steps : ((RandomSource.unit source).1 : Rat) < (unitSteps : Nat) :=
    Nat.cast_lt.2 (RandomSource.unit_lt source)
  exact (div_lt_one (by decide +kernel)).2 steps

namespace Row

variable {u sum : Rat} {row : List Rat}

/-- The entry at which a sum rises above a bound is positive. -/
theorem firstAbove_pos {position p : Nat} (below : sum ≤ u)
    (h : firstAbove u sum position row = some p) :
    ∃ i x, p = position + i ∧ row[i]? = some x ∧ 0 < x := by
  induction row generalizing sum position with
  | nil => cases h
  | cons x rest ih =>
    rw [firstAbove] at h
    split at h
    next above =>
      cases h
      exact ⟨0, x, rfl, rfl, by linarith⟩
    next short =>
      obtain ⟨i, y, rfl, there, pos⟩ := ih (not_lt.1 short) h
      exact ⟨i + 1, y, by omega, there, pos⟩

theorem lastPositive_pos {p : Nat} (h : lastPositive row = some p) :
    ∃ x, row[p]? = some x ∧ 0 < x := by
  obtain ⟨entry, last, rfl⟩ := Option.map_eq_some_iff.1 h
  obtain ⟨mem, pos⟩ := List.mem_filter.1 (List.mem_of_getLast? last)
  exact ⟨entry.1, List.mem_zipIdx_iff_getElem?.1 mem, by simpa using pos⟩

theorem lastPositive_isSome (h : ∃ x ∈ row, 0 < x) : (lastPositive row).isSome = true := by
  obtain ⟨x, hx, pos⟩ := h
  obtain ⟨i, hi⟩ := List.mem_iff_getElem?.1 hx
  have mem : (x, i) ∈ row.zipIdx := List.mem_zipIdx_iff_getElem?.2 hi
  rw [lastPositive, Option.isSome_map, List.getLast?_isSome]
  exact List.ne_nil_of_mem (List.mem_filter.2 ⟨mem, by simpa using pos⟩)

/-- A draw selects a position with a positive entry, if the row has one. -/
theorem pick_pos (nonneg : 0 ≤ u) (h : ∃ x ∈ row, 0 < x) : ∃ x, row[pick u row]? = some x ∧ 0 < x := by
  unfold pick
  rcases found : firstAbove u 0 0 row with _ | p
  · obtain ⟨p, last⟩ := Option.isSome_iff_exists.1 (lastPositive_isSome h)
    rw [Option.getD_none, last, Option.getD_some]
    exact lastPositive_pos last
  · obtain ⟨i, x, e, there, pos⟩ := firstAbove_pos nonneg found
    rw [Option.getD_some, e, Nat.zero_add]
    exact ⟨x, there, pos⟩

end Row

namespace Diagram

variable {d : Diagram Rat}

/-- Some chance variables, with their parents, have been drawn to possible positions. -/
structure Drawn (d : Diagram Rat) (done : List VarId) (slots : Slots) : Prop where
  within : slots.Within d.vars
  assigned : ∀ id ∈ done, slots.isAssigned id = true
  closed : ∀ v ∈ d.vars, v.id ∈ done → ∀ p ∈ v.parents, p ∈ done
  positive : ∀ v ∈ d.vars, v.id ∈ done → ∀ f, d.cpt? v.id = some f → 0 < f.valueIn slots.world

theorem drawn_nil : d.Drawn [] Slots.empty where
  within := Factor.within_empty
  assigned _ h := absurd h List.not_mem_nil
  closed _ _ h := absurd h List.not_mem_nil
  positive _ _ h := absurd h List.not_mem_nil

variable {done : List VarId} {slots : Slots} {v : Variable} {f : Factor Rat}

/-- The parents of a chance variable come before it in the order of the draws. -/
theorem parents_drawn (h : d.WellFormed) (hv : v ∈ d.vars) (chance : v.kind = .chance)
    {rest : List VarId} (order : d.chanceOrder = done ++ v.id :: rest) :
    ∀ p ∈ v.parents, p ∈ done := by
  intro p hp
  obtain ⟨u, hu, rfl, kind⟩ := h.parents v hv p hp
  obtain ⟨pre, post, split⟩ := List.append_of_mem (h.mem_topological.2 ⟨v, hv, rfl⟩)
  have before : u.id ∈ pre := h.parentsFirst pre v.id post split u.id ((h.parentsOf_eq hv).symm ▸ hp)
  have nodup : d.chanceOrder.Nodup := h.nodup_orderOf .chance
  have passes : ∀ w ∈ d.vars, w.kind = .chance → (d.byId? w.id).any (·.kind == .chance) = true :=
    fun w hw kind => by rw [h.byId?_eq_some.2 ⟨hw, rfl⟩, Option.any_some, kind]; rfl
  have kept : d.chanceOrder = pre.filter (fun id => (d.byId? id).any (·.kind == .chance)) ++
      v.id :: post.filter fun id => (d.byId? id).any (·.kind == .chance) := by
    rw [chanceOrder, orderOf, split, List.filter_append]
    exact congrArg _ (List.filter_cons_of_pos (passes v hv chance))
  rw [(split_unique (order ▸ nodup) (order.symm.trans kept)).1]
  exact List.mem_filter.2 ⟨before, passes u hu (kind chance)⟩

theorem world_set (id : VarId) (p : Nat) :
    (slots.set id (some p)).world = Function.update slots.world id p := by
  funext other
  rw [Slots.world, Slots.get?_set, Function.update_apply]
  by_cases same : id = other
  · rw [if_pos same, if_pos same.symm, Option.getD_some]
  · rw [if_neg same, if_neg (Ne.symm same), Slots.world]

/-- The row of the next variable, and what it says of each position. -/
theorem Drawn.row (h : d.WellFormed) (drawn : d.Drawn done slots) (hf : d.Conditional v f)
    (ready : ∀ p ∈ v.parents, p ∈ done) :
    f.row slots =
      .ok ((List.range v.card).map fun p => f.valueIn (Function.update slots.world v.id p)) := by
  refine row_eq_map h hf (h.world_inRange drawn.within) fun id hid => ?_
  obtain ⟨p, hp⟩ := Slots.isAssigned_iff.1 (drawn.assigned id (ready id hid))
  rw [hp, Slots.world, hp, Option.getD_some]

/-- Drawing one more variable, whose parents have been drawn, leaves the earlier tables alone. -/
theorem Drawn.draw (h : d.WellFormed) (drawn : d.Drawn done slots) (hv : v ∈ d.vars)
    (fresh : v.id ∉ done) (ready : ∀ p ∈ v.parents, p ∈ done) (made : d.cpt? v.id = some f) {p : Nat}
    (lt : p < v.card) (pos : 0 < f.valueIn (Function.update slots.world v.id p)) :
    d.Drawn (done ++ [v.id]) (slots.set v.id (some p)) where
  within := drawn.within.set h.inj hv lt
  assigned id hid := by
    rw [Slots.isAssigned, Slots.get?_set]
    split
    next => rfl
    next other =>
      rcases List.mem_append.1 hid with hid | hid
      · exact drawn.assigned id hid
      · exact absurd (List.mem_singleton.1 hid).symm other
  closed u hu hm q hq := by
    rcases List.mem_append.1 hm with hm | hm
    · exact List.mem_append_left _ (drawn.closed u hu hm q hq)
    · obtain rfl := h.inj u hu v hv (List.mem_singleton.1 hm)
      exact List.mem_append_left _ (ready q hq)
  positive u hu hm g hg := by
    rw [world_set]
    rcases List.mem_append.1 hm with hm | hm
    · -- the new variable is neither a variable drawn before nor a parent of one
      obtain ⟨-, -, cond⟩ := conditional_of_cpt? h hu hg
      have away : v.id ∉ g.scope.ids := fun hid => by
        rcases (cond.mem_ids h hu).1 hid with parent | same
        · exact fresh (drawn.closed u hu hm v.id parent)
        · exact fresh (same ▸ hm)
      rw [Factor.valueIn_congr (h.built_conditional hu cond).1 fun id hid =>
        Function.update_of_ne (fun e : id = v.id => away (e ▸ hid)) _ _]
      exact drawn.positive u hu hm g hg
    · obtain rfl := h.inj u hu v hv (List.mem_singleton.1 hm)
      cases made.symm.trans hg
      exact pos

/-- Once all chance variables are drawn, their positions stand for a possible state. -/
theorem Drawn.possible (h : d.WellFormed) (drawn : d.Drawn d.chanceOrder slots) :
    ∃ state, d.assignmentOf slots d.chanceOrder = .ok state ∧ d.Possible state := by
  obtain ⟨state, made, assigns, valued⟩ := exists_assignmentOf h drawn.within
    (h.nodup_orderOf .chance) (fun _ => h.mem_orderOf)
    fun v hv chance => drawn.assigned v.id (h.mem_orderOf.2 ⟨v, hv, rfl, chance⟩)
  refine ⟨state, made, assigns, fun slots' made' f hf => ?_⟩
  obtain ⟨v, hv, found⟩ := exists_cpt?_eq h hf
  obtain ⟨chance, -, cond⟩ := conditional_of_cpt? h hv found
  have same : ∀ u ∈ d.chanceVars, slots'.world u.id = slots.world u.id := by
    intro u hu
    obtain ⟨hu, kind⟩ := mem_chanceVars.1 hu
    obtain ⟨p, value, hp, there, held⟩ := valued u hu kind
    rw [Slots.world, Slots.world, get?_slotsOf_of_getElem? h made' hu there held, hp]
  rw [cond.valueIn_congr h (mem_chanceVars.2 ⟨hv, chance⟩) same]
  exact drawn.positive v hv (h.mem_orderOf.2 ⟨v, hv, rfl, chance⟩) f found

end Diagram

/-! ## Trials -/

namespace DiagramEnvironment

open Diagram

variable {γ : Type} [RandomSource γ] {d : Diagram Rat}

theorem sample_yields (kept : DiagramEnvironment Rat γ → Prop) {row : List Rat}
    (stable : ∀ env source, kept env → kept { env with source }) (h : ∃ x ∈ row, 0 < x) :
    Step.Yields kept (sample row) fun p env => kept env ∧ ∃ x, row[p]? = some x ∧ 0 < x := by
  intro env hk
  exact ⟨_, _, rfl, stable _ _ hk, Row.pick_pos (RandomSource.fraction_nonneg env.source) h⟩

/-- Drawing the rest of the chance variables succeeds and keeps every table positive. -/
theorem drawAll_drawn (h : d.WellFormed) (likely : d.Likely) {done rest : List VarId}
    (order : d.chanceOrder = done ++ rest) {slots : Slots} (drawn : d.Drawn done slots) :
    Step.Yields (fun env : DiagramEnvironment Rat γ => env.diagram = d) (drawAll rest slots)
      fun slots env => env.diagram = d ∧ d.Drawn d.chanceOrder slots := by
  induction rest generalizing done slots with
  | nil =>
    rw [List.append_nil] at order
    exact Step.Yields.pure fun env hd => ⟨hd, order ▸ drawn⟩
  | cons id rest ih =>
    have place : id ∈ d.chanceOrder := order ▸ List.mem_append_right _ List.mem_cons_self
    obtain ⟨v, hv, rfl, chance⟩ := h.mem_orderOf.1 place
    obtain ⟨f, mem, found, cond⟩ := exists_conditional h (mem_chanceVars.2 ⟨hv, chance⟩)
    have nodup : d.chanceOrder.Nodup := h.nodup_orderOf .chance
    have fresh : v.id ∉ done := (notMem_of_nodup (order ▸ nodup)).1
    have ready := parents_drawn h hv chance order
    refine Step.Yields.read_bind fun env hd => ?_
    rw [hd]
    simp only [found]
    rw [drawn.row h cond ready, Step.ofModel_ok, pure_bind]
    have possible : ∃ x ∈ (List.range v.card).map fun p =>
        f.valueIn (Function.update slots.world v.id p), 0 < x := by
      obtain ⟨p, lt, pos⟩ := exists_possible h likely hv mem cond (h.world_inRange drawn.within)
      exact ⟨_, List.mem_map_of_mem (List.mem_range.2 lt), pos⟩
    have sampled := sample_yields (fun env : DiagramEnvironment Rat γ => env.diagram = d)
      (fun _ _ k => k) possible
    refine sampled.bind fun p => ?_
    rintro env' ⟨hd', x, there, pos⟩
    rw [List.getElem?_map, Option.map_eq_some_iff] at there
    obtain ⟨q, hq, rfl⟩ := there
    obtain ⟨lt, rfl⟩ := List.getElem?_eq_some_iff.1 hq
    rw [List.getElem_range] at pos
    rw [List.length_range] at lt
    refine ih ?_ (drawn.draw h hv fresh ready found lt pos) env' hd'
    rw [order, List.append_assoc, List.singleton_append]

variable (d) in
/-- An environment of a diagram in a possible state. -/
structure Met (env : DiagramEnvironment Rat γ) (state : Assignment) : Prop where
  diagram : env.diagram = d
  current : env.state = state
  possible : d.Possible state

/-- A trial begins in a possible state. -/
theorem reset_yields (h : d.WellFormed) (likely : d.Likely) :
    Step.Yields (fun env : DiagramEnvironment Rat γ => env.diagram = d) reset
      fun state env => Met d env state := by
  refine Step.Yields.read_bind fun env hd => ?_
  rw [hd]
  refine (drawAll_drawn h likely rfl drawn_nil).bind fun slots => ?_
  rintro env ⟨hd, complete⟩
  obtain ⟨state, made, possible⟩ := complete.possible h
  refine ⟨state, { env with state }, ?_, hd, rfl, possible⟩
  rw [made]
  rfl

omit [RandomSource γ] in
/-- A joint action has a reward in the state that came up, which the utility table tells. -/
theorem step_yields (h : d.WellFormed) {state action : Assignment}
    (action_of : d.Assigns .decision action) :
    Step.Yields (fun env : DiagramEnvironment Rat γ => Met d env state) (step action)
      fun reward env => env.diagram = d ∧
        d.utilityAt (Assignment.merge state action) = .ok reward := by
  refine Step.Yields.read_bind fun env met => ?_
  obtain ⟨reward, paid⟩ := exists_utilityAt h fun v hv =>
    known_merge h met.possible.assigns action_of hv
  rw [met.diagram, met.current, paid]
  exact Step.Yields.ofModel fun _ k => ⟨reward, rfl, k.diagram, rfl⟩

end DiagramEnvironment

end Counsel
