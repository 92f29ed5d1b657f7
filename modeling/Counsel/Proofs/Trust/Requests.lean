/-
Requests to an agent in any order: it is reset, it acts and it learns. An agent that has an invariant
under which it acts and learns well (`Agent.Serves`) serves every course of requests that keep to the
layouts and in which only the experts of the last reset speak (`Agent.Serves.mapM_yields`). The agents
that take advice have such an invariant (`TrustAgent.serves`, `Follower.serves`), and it holds from
the moment that they are made.
-/
import Counsel.Proofs.Experiment.Complete
import Counsel.Proofs.Trust.Follower
import Counsel.Proofs.Trust.Run

namespace Counsel

open Outcome

variable {α γ κ : Type} {states actions : Layout}

/-! ## Requests -/

/-- What an agent can be asked for. -/
inductive Request (α : Type) where
  | reset (experts : List ExpertId)
  | learn (trial : Trial α) (advice : AdviceBundle)
  | act (state : Assignment) (explore : Bool)

namespace Request

/-- The experts of the last reset, after a request. -/
def experts (ids : List ExpertId) : Request α → List ExpertId
  | .reset experts => experts
  | .learn .. => ids
  | .act .. => ids

/-- A request that keeps to the layouts of the states and of the joint actions, and in which only these
experts speak. -/
def Fits (states actions : Layout) (ids : List ExpertId) : Request α → Prop
  | .reset _ => True
  | .learn trial advice =>
    states.Reads trial.state ∧ actions.Reads trial.action ∧ advice.From ids (· ∈ actions.assignments)
  | .act state _ => states.Reads state

/-- Requests that fit one after the other, where these were the experts of the last reset. -/
def Proper (states actions : Layout) (ids : List ExpertId) : List (Request α) → Prop
  | [] => True
  | request :: rest =>
    request.Fits states actions ids ∧ Proper states actions (request.experts ids) rest

/-- The answers that are called for: a joint action where the agent is to act, and nothing elsewhere. -/
def Answered (actions : Layout) : Request α → Option Assignment → Prop
  | .act .., some action => action ∈ actions.assignments
  | .act .., none => False
  | _, answer => answer = none

end Request

namespace Agent

variable [Agent κ α]

/-- Serves a request; the answer is the action of the agent, if it is to act. -/
def serve : Request α → Step κ (Option Assignment)
  | .reset experts => do
    modify (Agent.reset experts)
    return none
  | .learn trial advice => do
    Agent.learn trial advice
    return none
  | .act state explore => some <$> Agent.act state explore

/-- An invariant of an agent, by the experts of its last reset, under which the agent does well. -/
structure Serves (states actions : Layout) (ready : List ExpertId → κ → Prop) : Prop where
  reset : ∀ {ids agent} ids', ready ids agent → ready ids' (Agent.reset ids' agent)
  act : ∀ {ids state} explore, states.Reads state →
    Step.Yields (ready ids) (Agent.act state explore) fun action agent =>
      ready ids agent ∧ action ∈ actions.assignments
  learn : ∀ {ids trial advice}, states.Reads trial.state → actions.Reads trial.action →
    advice.From ids (· ∈ actions.assignments) →
    Step.Yields (ready ids) (Agent.learn trial advice) fun _ => ready ids

variable {ready : List ExpertId → κ → Prop} {ids : List ExpertId}

/-- One request. -/
theorem Serves.serve_yields (serves : Serves states actions ready) {request : Request α}
    (fits : request.Fits states actions ids) :
    Step.Yields (ready ids) (serve request) fun answer agent =>
      ready (request.experts ids) agent ∧ request.Answered actions answer := by
  cases request with
  | reset experts =>
    have forgotten : Step.Yields (ready ids) (modify (Agent.reset experts)) fun _ => ready experts :=
      Step.Yields.change fun _ k => serves.reset experts k
    exact forgotten.bind fun _ => Step.Yields.pure fun _ k => ⟨k, rfl⟩
  | learn trial advice =>
    obtain ⟨state_of, action_of, heard⟩ := fits
    exact (serves.learn state_of action_of heard).bind fun _ => Step.Yields.pure fun _ k => ⟨k, rfl⟩
  | act state explore => exact (serves.act explore fits).map fun _ _ k => k

/-- A whole course of requests. -/
theorem Serves.mapM_yields (serves : Serves states actions ready) {requests : List (Request α)}
    (proper : Request.Proper states actions ids requests) :
    Step.Yields (ready ids) (requests.mapM serve) fun answers agent =>
      (∃ ids', ready ids' agent) ∧ List.Forall₂ (Request.Answered actions) requests answers := by
  induction requests generalizing ids with
  | nil => exact Step.Yields.pure fun _ k => ⟨⟨ids, k⟩, .nil⟩
  | cons request rest ih =>
    rw [List.mapM_cons]
    refine (serves.serve_yields proper.1).bind fun answer => ?_
    refine Step.Yields.given (fun _ k => k.2) fun answered => ?_
    refine ((ih proper.2).of_imp fun _ k => k.1).bind fun answers => ?_
    exact Step.Yields.pure fun _ k => ⟨k.1, .cons answered k.2⟩

/-- An agent that serves every course of requests that fit: each learning succeeds, each act names a
joint action, and all that it then remembers of its experts, in some tables, are joint actions. -/
def Dependable (states actions : Layout) (memories : κ → List (StateTable (Option Assignment)))
    (agent : κ) : Prop :=
  ∀ requests : List (Request α), Request.Proper states actions [] requests →
    ∃ answers after, answer (requests.mapM serve) agent = (.ok answers, after) ∧
      List.Forall₂ (Request.Answered actions) requests answers ∧
      ∀ memory ∈ memories after, memory.Recalls states actions

theorem Serves.dependable (serves : Serves states actions ready)
    {memories : κ → List (StateTable (Option Assignment))}
    (recalls : ∀ ids agent, ready ids agent → ∀ memory ∈ memories agent,
      memory.Recalls states actions) {agent : κ} (start : ready [] agent) :
    Dependable states actions memories agent := by
  intro requests proper
  obtain ⟨answers, after, served, ⟨ids, holds⟩, answered⟩ :=
    serves.mapM_yields proper agent start
  exact ⟨answers, after, served, answered, recalls ids after holds⟩

end Agent

/-! ## The agents that take advice -/

variable [Scalar α]

theorem ActionValues.spans_of_ofConfig {config : LearnerConfig α} {q : ActionValues α}
    (made : ofConfig states actions config = .ok q) : q.Spans states actions := by
  obtain ⟨-, joint, joined, rfl⟩ := ofConfig_eq_ok.1 made
  exact ⟨rfl, rfl, joined, rfl⟩

variable [RandomSource γ]

theorem GreedyLearner.Arises.ready {learning : LearnerConfig α} {learner : GreedyLearner α γ}
    (arises : learner.Arises states actions learning) : learner.Ready states actions :=
  (ActionValues.spans_of_ofConfig arises.fresh).of_reset

namespace TrustAgent

/-- What is remembered of each expert. -/
def memories (agent : TrustAgent α γ) : List (StateTable (Option Assignment)) :=
  agent.experts.values.map (·.memory)

/-- An agent that is ready, however often it acted and judged since its last reset. -/
def Serving (states actions : Layout) (ids : List ExpertId) (agent : TrustAgent α γ) : Prop :=
  ∃ acted n, agent.Ready states actions ids acted fun _ => n

omit [Scalar α] [RandomSource γ] in
theorem Serving.recalls {ids : List ExpertId} {agent : TrustAgent α γ}
    (serving : agent.Serving states actions ids) :
    ∀ memory ∈ agent.memories, memory.Recalls states actions := by
  intro memory mem
  obtain ⟨acted, n, ready⟩ := serving
  obtain ⟨known, hk, rfl⟩ := List.mem_map.1 mem
  obtain ⟨id, found⟩ := NameMap.mem_values.1 hk
  exact (ready.known id known found).memory

theorem serves [Beta.Ranking α] :
    Agent.Serves states actions (Serving (α := α) (γ := γ) states actions) where
  reset ids' serving := by
    obtain ⟨acted, n, ready⟩ := serving
    exact ⟨0, 0, ready_reset ready.base ids'⟩
  act explore state_of := by
    rintro agent ⟨acted, n, ready⟩
    obtain ⟨action, after, ran, ready', mem⟩ := act_yields state_of explore agent ready
    exact ⟨action, after, ran, ⟨acted + 1, n, ready'⟩, mem⟩
  learn state_of action_of heard := by
    rintro agent ⟨acted, n, ready⟩
    obtain ⟨u, after, ran, ready'⟩ := learn_yields state_of action_of heard n agent ready
    exact ⟨u, after, ran, acted, n + 1, ready'⟩

/-- An agent that is made around a learner has no experts yet. -/
theorem serving_of_ofConfig {base : GreedyLearner α γ} (ready : base.Ready states actions)
    {config : TrustConfig α} {trials : Nat} {agent : TrustAgent α γ}
    (made : ofConfig base config trials = .ok agent) : agent.Serving states actions [] := by
  unfold ofConfig at made
  split at made
  next => cases made
  next =>
    cases made
    refine ⟨0, 0, ready, fun _ => ?_, fun _ _ found => ?_, fun _ => ?_, fun _ _ found => ?_⟩
    · simp [NameMap.mem_names]
    · simp at found
    · simp [NameMap.mem_names]
    · simp at found

end TrustAgent

theorem Follower.serves : Agent.Serves states actions (Ready (α := α) (γ := γ) states actions) where
  reset ids' ready := ready.reset ids'
  act explore state_of := act_yields state_of explore
  learn state_of action_of heard := learn_yields state_of action_of heard

namespace Agent

/-- Agents that take advice serve whatever they are asked for, around a learner that comes about and
whatever their source draws: both those that weigh it, in either mode and with any settings that pass,
and those that follow it. -/
theorem dependable_of_arises [Beta.Ranking α] {learning : LearnerConfig α}
    {learner : GreedyLearner α γ} (arises : learner.Arises states actions learning) :
    (∀ config trials agent, TrustAgent.ofConfig learner config trials = .ok agent →
      Dependable states actions TrustAgent.memories agent) ∧
    ∀ seed, Dependable states actions (fun agent : Follower α γ => agent.memory.values)
      (Follower.ofLearner learner seed) := by
  refine ⟨fun config trials agent made => ?_, fun seed => ?_⟩
  · exact TrustAgent.serves.dependable (fun _ _ serving => serving.recalls)
      (TrustAgent.serving_of_ofConfig arises.ready made)
  · refine Follower.serves.dependable (fun _ agent ready memory mem => ?_)
      (Follower.ready_ofLearner arises.ready seed)
    obtain ⟨id, found⟩ := NameMap.mem_values.1 mem
    exact ready.memory id memory found

/-- An agent that takes its experts to be always right. -/
def believer : TrustAgent Rat Still :=
  (TrustAgent.ofConfig beginner { TrustConfig.standard with prior := ⟨1, 0⟩ } 10).toOption.get
    (by decide +kernel)

/-- Two experts contradict each other in a trial that does not tell the moves apart, and the agent is to
act in the state of that trial. -/
def contradiction : List (Request Rat) :=
  [.reset ["left", "right"],
    .learn ⟨signal true, move true, 0⟩
      (.ofList [("left", some (move true)), ("right", some (move false))]),
    .act (signal true) true]

theorem proper_contradiction : Request.Proper signals moves [] contradiction := by
  have said : AdviceBundle.From ["left", "right"] (· ∈ moves.assignments)
      (.ofList [("left", some (move true)), ("right", some (move false))]) := by
    refine @AdviceBundle.from_ofList [("left", some (move true)), ("right", some (move false))] _
      fun s hs a ha => ?_
    fin_cases hs
    · cases ha
      decide +kernel
    · cases ha
      decide +kernel
  have seen : signals.Reads (signal true) := ⟨1, by decide +kernel⟩
  exact ⟨trivial, ⟨seen, ⟨1, by decide +kernel⟩, said⟩, seen, trivial⟩

/-- Whoever serves these requests makes a move at the end. -/
theorem Dependable.move_of_contradiction {κ : Type} [Agent κ Rat] {agent : κ}
    {memories : κ → List (StateTable (Option Assignment))}
    (dependable : Dependable signals moves memories agent) :
    ∃ action ∈ moves.assignments,
      (answer (contradiction.mapM serve) agent).1.toOption = some [none, none, some action] := by
  obtain ⟨answers, after, served, answered, -⟩ := dependable contradiction proper_contradiction
  obtain _ | ⟨rfl, _ | ⟨rfl, _ | ⟨made, rest⟩⟩⟩ := answered
  cases rest
  rename_i said
  cases said with
  | none => exact made.elim
  | some action => exact ⟨action, made, by rw [served]; rfl⟩

/-- No move agrees with both experts, and yet one is made; so it is by a follower of both. -/
theorem dependable_of_contradiction :
    letI := Experiment.wholeCounts
    ((answer (contradiction.mapM serve) believer).2.posterior (signal true)).toOption = some none ∧
      (∃ action ∈ moves.assignments,
        (answer (contradiction.mapM serve) believer).1.toOption = some [none, none, some action]) ∧
      ∃ action ∈ moves.assignments,
        (answer (contradiction.mapM serve) (Follower.ofLearner beginner 0)).1.toOption =
          some [none, none, some action] := by
  let _ := Experiment.wholeCounts
  have arises : beginner.Arises signals moves .standard := .made (eq_ok_get _)
  obtain ⟨weighing, following⟩ := dependable_of_arises arises
  refine ⟨by decide +kernel, (weighing _ 10 believer (eq_ok_get _)).move_of_contradiction,
    (following 0).move_of_contradiction⟩

end Agent

end Counsel
