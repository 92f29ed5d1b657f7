/-
The oracle of a diagram, whatever it was asked before (`Oracle.Sound`). In a state it names a joint
action (`act_yields`), and it can tell what a joint action is worth in a possible state, because
evidence on every variable has a positive probability there (`expectedUtility_yields`).
-/
import Counsel.Proofs.Diagram.Likely
import Counsel.Proofs.Diagram.Shown
import Counsel.Proofs.Inference.Rules
import Counsel.Proofs.Inference.Certain
import Counsel.Proofs.Oracle.Faithful
import Counsel.Proofs.Step

namespace Counsel

open Outcome

namespace Diagram

variable {d : Diagram Rat} {state action : Assignment}

/-- A joint action leaves a possible state possible. -/
theorem Possible.positive_merge (h : d.WellFormed) (possible : d.Possible state)
    (action_of : d.Assigns .decision action) {slots : Slots}
    (made : d.slotsOf (Assignment.merge state action) = .ok slots) :
    ∀ f ∈ d.probabilityFactors, 0 < f.valueIn slots.world := by
  obtain ⟨alone, made_alone⟩ := possible.assigns.exists_slotsOf h
  intro f hf
  obtain ⟨v, hv, cond⟩ := forall₂_right_mem h.conditionals hf
  -- the chance variables have the positions of the state
  have same : ∀ u ∈ d.chanceVars, slots.world u.id = alone.world u.id := fun u hu => by
    obtain ⟨hu, kind⟩ := mem_chanceVars.1 hu
    rw [Slots.world, Slots.world, get?_slotsOf_merge h action_of made_alone made hu kind]
  rw [cond.valueIn_congr h hv same]
  exact possible.positive alone made_alone f hf

/-- A possible state with a joint action is evidence on every variable; along an order that is not refused for
its entries it has a solution, whose expected utility is what the utility table says. -/
theorem optimize_merge (h : d.WellFormed) (possible : d.Possible state)
    (action_of : d.Assigns .decision action) {slots : Slots}
    (made : d.slotsOf (Assignment.merge state action) = .ok slots) {order : EliminationOrder}
    (consistent : d.Consistent order.ids (d.requisiteChance slots) slots) (n : Nat) :
    ∃ s m, answer (d.optimize order (Assignment.merge state action)) n = (.ok s, m) ∧
      d.utilityAt (Assignment.merge state action) = .ok s.expectedUtility := by
  obtain ⟨_, made', all⟩ := exists_slotsOf_merge h possible.assigns action_of
  cases made.symm.trans made'
  obtain ⟨s, m, solved, value⟩ := optimize_of_certain h (h.admits_of_slotsOf made) all
    (possible.positive_merge h action_of made) made consistent n
  refine ⟨s, m, solved, ?_⟩
  rw [utilityAt_of_shows h (shows_slotsOf h made fun v hv => ⟨hv, all v hv⟩), value]

theorem solve_merge (h : d.WellFormed) (possible : d.Possible state)
    (action_of : d.Assigns .decision action) (n : Nat) :
    ∃ s m, answer (d.solve (Assignment.merge state action)) n = (.ok s, m) ∧
      d.utilityAt (Assignment.merge state action) = .ok s.expectedUtility := by
  obtain ⟨slots, made, -⟩ := exists_slotsOf_merge h possible.assigns action_of
  rw [EliminationOrder.solve_eq made n]
  exact optimize_merge h possible action_of made (EliminationOrder.consistent_forEvidence h) n

/-- What a possible state and a joint action are worth is what the utility table says. -/
theorem worth?_merge (h : d.WellFormed) (possible : d.Possible state)
    (action_of : d.Assigns .decision action) :
    d.worth? (Assignment.merge state action) =
      (d.utilityAt (Assignment.merge state action)).toOption := by
  obtain ⟨s, m, solved, paid⟩ := solve_merge h possible action_of 0
  rw [← d.worth?_eq h _ 0, solved, paid]
  rfl

end Diagram

namespace Oracle

variable {state action : Assignment}

section Acting

variable {α : Type} [Scalar α] {d : Diagram α} {oracle : Oracle α}

/-- An oracle of a diagram. It is solved, and what it keeps for a state is a joint action. -/
structure Sound (d : Diagram α) (oracle : Oracle α) : Prop where
  diagram : oracle.diagram = d
  solved : ∃ n m, answer (d.solve NameMap.empty) n = (.ok oracle.solution, m)
  states : d.Lays .chance oracle.states
  actions : d.Lays .decision oracle.actions
  kept : ∀ i action, oracle.policy.at? i = some (some action) → d.Assigns .decision action

theorem New.sound (new : oracle.New d) : Sound d oracle :=
  ⟨new.diagram, new.solved, new.states, new.actions, fun i action held =>
    absurd held (new.policy i action)⟩

/-- The joint action of a state, from the solution: it shows the decisions where following the rules
leads to. -/
theorem Sound.exists_computeAction (h : d.WellFormed) (sound : Sound d oracle)
    (state_of : d.Assigns .chance state) {slots : Slots} (made : d.slotsOf state = .ok slots) :
    ∃ action, oracle.computeAction state = .ok action ∧ d.Assigns .decision action ∧
      action.Shows (d.pick d.decisionOrder)
        (Solution.follow oracle.solution.rules slots.world) := by
  obtain ⟨n, m, run⟩ := sound.solved
  obtain ⟨chosen, taken, turns, within⟩ := d.exists_act h run (h.admits_of_slotsOf made).within
    fun v hv chance => (h.isAssigned_slotsOf made hv).2 (by
      obtain ⟨value, -, held⟩ := state_of.valued v hv chance
      rw [held]
      rfl)
  have ids : chosen.map (·.1) = d.decisionOrder := by
    rw [turns, List.map_map]
    exact List.map_id _
  have nodup : (chosen.map (·.1)).Nodup := ids ▸ h.nodup_orderOf .decision
  have chosen_at : ∀ v ∈ d.vars, v.kind = .decision → (slots.setAll chosen).get? v.id =
      some (Solution.follow oracle.solution.rules slots.world v.id) := fun v hv decision =>
    Slots.get?_setAll_of_mem _ nodup
      (turns ▸ List.mem_map_of_mem (h.mem_orderOf.2 ⟨v, hv, rfl, decision⟩))
  obtain ⟨action, named, action_of, valued⟩ := Diagram.exists_assignmentOf h within nodup
    (fun id => by rw [ids]; exact h.mem_orderOf) fun v hv decision =>
      Slots.isAssigned_iff.2 ⟨_, chosen_at v hv decision⟩
  refine ⟨action, ?_, action_of, fun v hv => ?_⟩
  · rw [computeAction, sound.diagram, sound.states.restrict_eq h state_of, made, ok_bind, taken, ok_bind]
    exact named
  · obtain ⟨hv, listed⟩ := h.mem_pick.1 hv
    have decision := (Diagram.mem_decisionOrder h hv).1 listed
    obtain ⟨p, value, held, there, found⟩ := valued v hv decision
    rw [chosen_at v hv decision, Option.some_inj] at held
    rw [held]
    exact Scope.namedPosition_eq_ok.2 ⟨value, found, Diagram.position?_of_getElem? h hv there⟩

/-- In a complete state, whose other names do not matter, the joint action shows the decisions where
following the rules leads to in the world of the state. -/
theorem New.exists_computeAction (h : d.WellFormed) (new : oracle.New d)
    (reads : oracle.states.Reads state) :
    ∃ x action, state.Shows d.chanceVars x ∧ oracle.computeAction state = .ok action ∧
      d.Assigns .decision action ∧
      action.Shows (d.pick d.decisionOrder) (Solution.follow oracle.solution.rules x) := by
  obtain ⟨assigns, slots, placed, -, shown⟩ := new.states.shows_of_reads h reads
  obtain ⟨action, computed, action_of, at_rules⟩ := new.sound.exists_computeAction h assigns placed
  refine ⟨slots.world, action, shown, ?_, action_of, at_rules⟩
  rw [← computed]
  exact computeAction_congr fun name named => (Layout.agree_restrict state name named).symm

/-- In a state an oracle names a joint action. -/
theorem act_yields (h : d.WellFormed) (state_of : d.Assigns .chance state) :
    Step.Yields (Sound d) (act state) fun action oracle =>
      Sound d oracle ∧ d.Assigns .decision action := by
  refine Step.Yields.read_bind fun oracle sound => ?_
  simp only
  split
  next action found =>
    have action_of : d.Assigns .decision action := by
      obtain ⟨i, -, held⟩ := Option.bind_eq_some_iff.1 found
      exact sound.kept i action (Option.join_eq_some_iff.1 held)
    exact Step.Yields.pure fun _ k => ⟨k, action_of⟩
  next =>
    obtain ⟨slots, placed⟩ := state_of.exists_slotsOf h
    obtain ⟨action, made, action_of, -⟩ := sound.exists_computeAction h state_of placed
    rw [made, Step.ofModel_ok, pure_bind]
    refine Step.Yields.bind (Step.Yields.change fun oracle sound => ?_) fun _ =>
      Step.Yields.pure fun _ k => k
    refine ⟨{ sound with kept := fun i other held => ?_ }, action_of⟩
    rcases held_of_keep held with ⟨-, rfl⟩ | held
    · exact action_of
    · exact sound.kept i other held

end Acting

variable {d : Diagram Rat}

/-- The diagram can be solved for a possible state and a joint action. -/
theorem solve_yields (h : d.WellFormed) (possible : d.Possible state)
    (action_of : d.Assigns .decision action) :
    Step.Yields (Sound d) (infer fun d => d.solve (Assignment.merge state action)) fun _ oracle =>
      Sound d oracle := by
  intro oracle sound
  obtain ⟨s, m, solved, -⟩ := Diagram.solve_merge h possible action_of oracle.issued
  exact ⟨s, { oracle with issued := m }, by rw [answer_infer, sound.diagram, solved]; rfl,
    { sound with }⟩

/-- In a possible state an oracle can tell what a joint action is worth. -/
theorem expectedUtility_yields (h : d.WellFormed) (possible : d.Possible state)
    (action_of : d.Assigns .decision action) :
    Step.Yields (Sound d) (expectedUtility state action) fun _ oracle => Sound d oracle := by
  refine Step.Yields.read_bind fun oracle sound => ?_
  simp only
  split
  next => exact Step.Yields.pure fun _ k => k
  next =>
    exact (solve_yields h possible action_of).bind fun s =>
      Step.Yields.bind (Step.Yields.change fun _ k => { k with }) fun _ => Step.Yields.pure fun _ k => k

/-- In a possible state an oracle can tell what the best joint action is worth. -/
theorem bestExpectedUtility_yields (h : d.WellFormed) (possible : d.Possible state) :
    Step.Yields (Sound d) (bestExpectedUtility state) fun _ oracle => Sound d oracle := by
  refine (act_yields h possible.assigns).bind fun action => ?_
  rintro oracle ⟨sound, action_of⟩
  exact expectedUtility_yields h possible action_of oracle sound

end Oracle

end Counsel
