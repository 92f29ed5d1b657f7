/-
What an oracle keeps is what it would work out anew. However an oracle was used (`Oracle.Arises`), its
answers are those of the oracle that was made: the action of a state is computed from the solution
(`Faithful.act`), and the expected utility of a state and an action is what the two are worth to the
diagram (`Faithful.expectedUtility`), because a kept answer belongs to the only assignment of its index.
So what an oracle is asked about its own variables is settled (`bestExpectedUtility_settles`).
-/
import Counsel.Proofs.Alike
import Counsel.Proofs.Diagram.Naming
import Counsel.Proofs.Inference.Renumbering

namespace Counsel

open Outcome

variable {α : Type} [Scalar α] {d : Diagram α}

namespace Diagram

/-- The joint layout of states and actions has a place for each variable. -/
theorem mem_places_joint (h : d.WellFormed) {states actions joint : Layout}
    (lays : d.Lays .chance states) (lays' : d.Lays .decision actions)
    (joined : states.join actions = .ok joint) {place : Place} :
    place ∈ joint.places ↔ ∃ v ∈ d.vars, (v.name, v.domain) = place := by
  rw [Layout.places_of_join joined, List.mem_append, lays.mem_places h, lays'.mem_places h]
  constructor
  · rintro (⟨v, hv, -, same⟩ | ⟨v, hv, -, same⟩)
    · exact ⟨v, hv, same⟩
    · exact ⟨v, hv, same⟩
  · rintro ⟨v, hv, same⟩
    cases of_kind : v.kind with
    | chance => exact .inl ⟨v, hv, of_kind, same⟩
    | decision => exact .inr ⟨v, hv, of_kind, same⟩

/-- Evidence names variables of the diagram only. -/
theorem covers_of_slotsOf (h : d.WellFormed) {states actions joint : Layout}
    (lays : d.Lays .chance states) (lays' : d.Lays .decision actions)
    (joined : states.join actions = .ok joint) {key : Assignment} {slots : Slots}
    (made : d.slotsOf key = .ok slots) : joint.Covers key := by
  intro name value held
  obtain ⟨entries, placed, -⟩ := bind_eq_ok.1 made
  obtain ⟨entry, -, named⟩ := exists_of_mapM_eq_ok placed (NameMap.get?_eq_some.1 held)
  obtain ⟨v, found, -⟩ := bind_eq_ok.1 named
  obtain ⟨hv, rfl⟩ := h.lookup_eq_ok.1 found
  exact List.mem_map_of_mem ((mem_places_joint h lays lays' joined).2 ⟨v, hv, rfl⟩)

/-- What can be solved for is evidence on the diagram. -/
theorem exists_slotsOf_of_solve {key : Assignment} {n m : Nat} {s : Solution α}
    (solved : answer (d.solve key) n = (.ok s, m)) : ∃ slots, d.slotsOf key = .ok slots := by
  unfold solve at solved
  obtain ⟨slots, _, made, -⟩ := answer_bind_ok.1 solved
  exact ⟨slots, (answer_ofModel_eq_ok.1 made).1⟩

end Diagram

namespace Oracle

variable {made oracle : Oracle α} {state action key : Assignment}

/-- An oracle as it is made: it has solved the diagram and keeps no answers. -/
structure New (d : Diagram α) (made : Oracle α) : Prop where
  diagram : made.diagram = d
  solved : ∃ n m, answer (d.solve NameMap.empty) n = (.ok made.solution, m)
  states : d.Lays .chance made.states
  actions : d.Lays .decision made.actions
  joined : made.states.join made.actions = .ok made.utilities.layout
  policy : ∀ i action, made.policy.at? i ≠ some (some action)
  utilities : ∀ i value, made.utilities.at? i ≠ some (some value)

theorem new_of_ofDiagram (made_of : Oracle.ofDiagram d = .ok made) : made.New d := by
  unfold ofDiagram at made_of
  rcases run : (d.solve NameMap.empty).run.run d.tableCount with ⟨e | s, m⟩
  · rw [run] at made_of
    cases made_of
  · simp only [run] at made_of
    split at made_of
    next => cases made_of
    next states actions joint laid =>
      cases made_of
      obtain ⟨states', hs, laid⟩ := bind_eq_ok.1 laid
      obtain ⟨actions', ha, laid⟩ := bind_eq_ok.1 laid
      obtain ⟨joint', joined, laid⟩ := bind_eq_ok.1 laid
      cases laid
      exact ⟨rfl, ⟨_, m, run⟩, hs, ha, joined, fun _ _ => StateTable.not_held_replicate,
        fun _ _ => StateTable.not_held_replicate⟩

/-- What could be solved for has names of the diagram only. -/
theorem New.covers_of_solve (h : d.WellFormed) (new : made.New d) {n m : Nat} {s : Solution α}
    (solved : answer (d.solve key) n = (.ok s, m)) : made.utilities.layout.Covers key := by
  obtain ⟨slots, placed⟩ := Diagram.exists_slotsOf_of_solve solved
  exact Diagram.covers_of_slotsOf h new.states new.actions new.joined placed

/-- The oracles that come about from one that was made, whatever they were asked. -/
inductive Arises (made : Oracle α) : Oracle α → Prop
  | made : Arises made made
  | acted {oracle : Oracle α} (state : Assignment) (arises : Arises made oracle) :
      Arises made (answer (act state) oracle).2
  | asked {oracle : Oracle α} (state action : Assignment) (arises : Arises made oracle) :
      Arises made (answer (expectedUtility state action) oracle).2

/-- An oracle that differs from the one that was made in what it keeps at most, and keeps nothing but
what that one would answer. -/
structure Faithful (made oracle : Oracle α) : Prop where
  diagram : oracle.diagram = made.diagram
  solution : oracle.solution = made.solution
  states : oracle.states = made.states
  actions : oracle.actions = made.actions
  layout : oracle.utilities.layout = made.utilities.layout
  policy : ∀ i action, oracle.policy.at? i = some (some action) →
    ∀ state, made.states.indexOf state = .ok i → made.computeAction state = .ok action
  utilities : ∀ i value, oracle.utilities.at? i = some (some value) →
    ∀ key, made.utilities.layout.Covers key → made.utilities.layout.indexOf key = .ok i →
      made.diagram.worth? key = some value

omit [Scalar α] in
/-- What is held in a cell was there before or has just been put there. -/
theorem held_of_keep {β : Type} {table : StateTable (Option β)} {index : Option Nat} {new b : β}
    {i : Nat} (h : (keep table index new).at? i = some (some b)) :
    (index = some i ∧ b = new) ∨ table.at? i = some (some b) := by
  cases index with
  | none => exact .inr h
  | some j =>
    rw [keep, StateTable.at?, StateTable.setAt, Array.getElem?_setIfInBounds] at h
    split at h
    next same =>
      split at h
      · cases h
        exact .inl ⟨congrArg some same, rfl⟩
      · cases h
    next => exact .inr h

omit [Scalar α] in
theorem layout_keep {β : Type} (table : StateTable (Option β)) (index : Option Nat) (new : β) :
    (keep table index new).layout = table.layout := by
  cases index <;> rfl

omit [Scalar α] in
theorem held_of_kept {β : Type} {table : StateTable (Option β)} {layout : Layout} {key : Assignment}
    {b : β} (h : kept table (layout.indexOf key).toOption = some b) :
    ∃ i, layout.indexOf key = .ok i ∧ table.at? i = some (some b) := by
  obtain ⟨i, hi, held⟩ := Option.bind_eq_some_iff.1 h
  exact ⟨i, toOption_eq_some.1 hi, Option.join_eq_some_iff.1 held⟩

theorem New.faithful (new : made.New d) : Faithful made made where
  diagram := rfl
  solution := rfl
  states := rfl
  actions := rfl
  layout := rfl
  policy i action held := absurd held (new.policy i action)
  utilities i value held := absurd held (new.utilities i value)

/-! ## Acting -/

/-- What is computed for a state depends on the values of the chance variables. -/
theorem computeAction_congr {other : Assignment} (same : made.states.Agree state other) :
    made.computeAction state = made.computeAction other := by
  rw [computeAction, computeAction, Layout.restrict_congr same]

theorem Faithful.computeAction_eq (faithful : Faithful made oracle) (state : Assignment) :
    oracle.computeAction state = made.computeAction state := by
  rw [computeAction, computeAction, faithful.diagram, faithful.solution, faithful.states]

/-- A faithful oracle acts as the solution says, and fails to as computing does, and stays faithful. -/
theorem Faithful.answer_act (faithful : Faithful made oracle) (state : Assignment) :
    (answer (Oracle.act state) oracle).1 = (made.computeAction state).mapError .model ∧
      Faithful made (answer (Oracle.act state) oracle).2 := by
  rw [Oracle.act, answer_get_bind]
  simp only
  rw [faithful.states]
  split
  next action found =>
    obtain ⟨i, hi, held⟩ := held_of_kept found
    rw [faithful.policy i action held state hi]
    exact ⟨rfl, faithful⟩
  next =>
    rw [faithful.computeAction_eq state, answer_bind, Step.answer_ofModel]
    rcases computed : made.computeAction state with e | action
    · exact ⟨rfl, faithful⟩
    · refine ⟨rfl, { faithful with policy := fun i other held state' hi => ?_ }⟩
      rcases held_of_keep held with ⟨same, rfl⟩ | held
      · rw [← computed]
        exact computeAction_congr (Layout.agree_of_indexOf hi (toOption_eq_some.1 same))
      · exact faithful.policy i other held state' hi

theorem Faithful.act (faithful : Faithful made oracle) (state : Assignment) :
    Both Eq (answer (act state) oracle).1 (made.computeAction state) ∧
      Faithful made (answer (Oracle.act state) oracle).2 := by
  obtain ⟨told, after⟩ := faithful.answer_act state
  refine ⟨?_, after⟩
  rw [told, both_eq_iff]
  cases made.computeAction state <;> rfl

/-! ## Expected utilities -/

omit [Scalar α] in
theorem answer_infer {β : Type} (step : Diagram α → Infer β) (oracle : Oracle α) :
    answer (infer step) oracle = ((answer (step oracle.diagram) oracle.issued).1.mapError .inference,
      { oracle with issued := (answer (step oracle.diagram) oracle.issued).2 }) := rfl

/-- The answer that is kept for an assignment. -/
def held (oracle : Oracle α) (key : Assignment) : Option α :=
  kept oracle.utilities (oracle.utilities.layout.indexOf key).toOption

/-- A kept value is given at once. -/
theorem answer_expectedUtility_of_held {value : α}
    (found : oracle.held (Assignment.merge state action) = some value) :
    answer (expectedUtility state action) oracle = (.ok value, oracle) := by
  unfold held at found
  rw [expectedUtility, answer_get_bind]
  simp only [found]
  rfl

/-- Otherwise the diagram is solved, and the value is kept. -/
theorem answer_expectedUtility_of_missing (missing : oracle.held (Assignment.merge state action) = none) :
    answer (expectedUtility state action) oracle =
      match answer (oracle.diagram.solve (Assignment.merge state action)) oracle.issued with
      | (.error e, issued) => (.error (.inference e), { oracle with issued })
      | (.ok s, issued) => (.ok s.expectedUtility,
          { oracle with
            issued
            utilities := keep oracle.utilities
              (oracle.utilities.layout.indexOf (Assignment.merge state action)).toOption
              s.expectedUtility }) := by
  unfold held at missing
  rw [expectedUtility, answer_get_bind]
  simp only [missing]
  rw [answer_bind, answer_infer]
  rcases answer (oracle.diagram.solve (Assignment.merge state action)) oracle.issued with ⟨e | s, m⟩ <;> rfl

/-- A value that is kept is that of the assignment without unknown names. -/
theorem Faithful.worth_of_held (faithful : Faithful made oracle) {value : α}
    (found : oracle.held key = some value) :
    made.diagram.worth? (made.utilities.layout.restrict key) = some value := by
  obtain ⟨i, hi, kept⟩ := held_of_kept found
  rw [faithful.layout] at hi
  exact faithful.utilities i value kept _ (Layout.covers_restrict key)
    ((Layout.indexOf_congr (Layout.agree_restrict key)).trans hi)

/-- Of a faithful oracle the expected utility of a state and an action is what both are worth, and it
stays faithful. -/
theorem Faithful.expectedUtility (h : d.WellFormed) (new : made.New d)
    (faithful : Faithful made oracle) (state action : Assignment) :
    (made.utilities.layout.Covers (Assignment.merge state action) →
      (answer (expectedUtility state action) oracle).1.toOption =
        d.worth? (Assignment.merge state action)) ∧
      Faithful made (answer (Oracle.expectedUtility state action) oracle).2 := by
  rcases found : oracle.held (Assignment.merge state action) with _ | value
  · have worth := d.worth?_eq h (Assignment.merge state action) oracle.issued
    rw [answer_expectedUtility_of_missing found, faithful.diagram, new.diagram]
    rcases solved : answer (d.solve (Assignment.merge state action)) oracle.issued with ⟨e | s, m⟩
    all_goals rw [solved] at worth
    · exact ⟨fun _ => worth, { faithful with diagram := new.diagram.symm }⟩
    · refine ⟨fun _ => worth, { faithful with
        diagram := new.diagram.symm
        layout := (layout_keep ..).trans faithful.layout
        utilities := fun i value held key covers hi => ?_ }⟩
      rw [faithful.layout] at held
      rcases held_of_keep held with ⟨same, rfl⟩ | held
      · -- what could be solved for is within the layout, where the index tells it
        rw [covers.eq_of_indexOf (new.covers_of_solve h solved) hi (toOption_eq_some.1 same), new.diagram,
          ← worth]
        rfl
      · exact faithful.utilities i value held key covers hi
  · rw [answer_expectedUtility_of_held found]
    refine ⟨fun covers => ?_, faithful⟩
    rw [← new.diagram, ← covers.restrict_eq, faithful.worth_of_held found]
    rfl

/-! ## Any use -/

theorem act_retains (state : Assignment) : Step.Keeps (Step.Retains (Faithful made)) (act state) :=
  fun _ faithful => (faithful.act state).2

theorem expectedUtility_retains (h : d.WellFormed) (new : made.New d) (state action : Assignment) :
    Step.Keeps (Step.Retains (Faithful made)) (expectedUtility state action) :=
  fun _ faithful => (faithful.expectedUtility h new state action).2

theorem bestExpectedUtility_retains (h : d.WellFormed) (new : made.New d) (state : Assignment) :
    Step.Keeps (Step.Retains (Faithful made)) (bestExpectedUtility state) :=
  (act_retains state).bind fun action => expectedUtility_retains h new state action

/-- However an oracle was used, it is faithful to the one that was made. -/
theorem Arises.faithful (h : d.WellFormed) (new : made.New d) (arises : Arises made oracle) :
    Faithful made oracle := by
  induction arises with
  | made => exact new.faithful
  | acted state _ ih => exact act_retains state _ ih
  | asked state action _ ih => exact expectedUtility_retains h new state action _ ih

end Oracle

/-! ## Settled answers -/

/-- The rules of a solution are for decisions of the diagram. -/
theorem Diagram.mem_decisionOrder_of_solve {key : Assignment} {n m : Nat} {s : Solution α}
    (solved : answer (d.solve key) n = (.ok s, m)) :
    ∀ rule ∈ s.rules, rule.decision.id ∈ d.decisionOrder := by
  obtain ⟨_, _, -, solved⟩ := answer_bind_ok.1 solved
  obtain ⟨_, _, -, solved⟩ := answer_bind_ok.1 solved
  obtain ⟨_, _, -, solved⟩ := answer_bind_ok.1 solved
  obtain ⟨_, _, -, solved⟩ := answer_bind_ok.1 solved
  obtain ⟨state, _, -, solved⟩ := answer_bind_ok.1 solved
  obtain ⟨_, _, -, solved⟩ := answer_bind_ok.1 solved
  obtain ⟨u, _, -, solved⟩ := answer_bind_ok.1 solved
  cases solved
  intro rule listed
  obtain ⟨id, hid, found⟩ := List.mem_filterMap.1 listed
  have same : rule.decision.id = id := by simpa using List.find?_some found
  exact same ▸ hid

/-- The decisions that are taken are those of the rules. -/
theorem Solution.ids_of_choices {rules : List (DecisionRule α)} {e after : Evaluation α}
    {chosen : List (VarId × Nat)} (taken : answer (choices rules) e = (.ok chosen, after)) :
    chosen.map (·.1) = rules.map (·.decision.id) := by
  induction rules generalizing e chosen with
  | nil =>
    cases taken
    rfl
  | cons rule rest ih =>
    obtain ⟨position, _, -, taken⟩ := answer_bind_ok.1 taken
    obtain ⟨_, _, -, taken⟩ := answer_bind_ok.1 taken
    obtain ⟨more, _, later, taken⟩ := answer_bind_ok.1 taken
    cases taken
    rw [List.map_cons, List.map_cons, ih later]

namespace Oracle

variable {made oracle : Oracle α} {state action : Assignment}

/-- What is computed for a state names decisions only. -/
theorem New.covers_computeAction (h : d.WellFormed) (new : made.New d)
    (computed : made.computeAction state = .ok action) : made.actions.Covers action := by
  obtain ⟨slots, -, computed⟩ := bind_eq_ok.1 computed
  obtain ⟨chosen, taken, computed⟩ := bind_eq_ok.1 computed
  obtain ⟨entries, listed, computed⟩ := bind_eq_ok.1 computed
  cases computed
  obtain ⟨n, m, solved⟩ := new.solved
  have ids := Solution.ids_of_choices (Prod.ext taken rfl)
  intro name value held
  obtain ⟨id, hid, read⟩ :=
    forall₂_right_mem (mapM_eq_ok.1 listed) (NameMap.mem_of_get?_ofList held)
  rw [new.diagram] at read
  obtain ⟨v, hv, rfl, rfl, -⟩ := (Diagram.namedValue_eq_ok h).1 read
  rw [ids] at hid
  obtain ⟨rule, hr, same⟩ := List.mem_map.1 hid
  obtain ⟨u, hu, eq, decision⟩ := h.mem_orderOf.1 (Diagram.mem_decisionOrder_of_solve solved rule hr)
  obtain rfl := h.inj u hu v hv (eq.trans same)
  exact List.mem_map_of_mem ((new.actions.mem_places h).2 ⟨u, hu, decision, rfl⟩)

theorem act_settles (state : Assignment) :
    Settles (Faithful made) (act state) (made.computeAction state).toOption := fun _ faithful =>
  ⟨both_eq_iff.1 (faithful.act state).1, (faithful.act state).2⟩

theorem expectedUtility_settles (h : d.WellFormed) (new : made.New d) (state_in : made.states.Covers state)
    (action_in : made.actions.Covers action) :
    Settles (Faithful made) (expectedUtility state action) (d.worth? (Assignment.merge state action)) :=
  fun _ faithful =>
    have told := faithful.expectedUtility h new state action
    ⟨told.1 (state_in.merge new.joined action_in), told.2⟩

theorem bestExpectedUtility_settles (h : d.WellFormed) (new : made.New d)
    (state_in : made.states.Covers state) :
    Settles (Faithful made) (bestExpectedUtility state)
      ((made.computeAction state).toOption.bind fun best => d.worth? (Assignment.merge state best)) :=
  (act_settles state).bind fun _ computed =>
    expectedUtility_settles h new state_in (new.covers_computeAction h (toOption_eq_some.1 computed))

end Oracle

end Counsel
