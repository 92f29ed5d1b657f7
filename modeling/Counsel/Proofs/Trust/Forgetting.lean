/-
What is left of an agent after a reset. The agents keep their settings and their seeds whatever they are
asked for, whether it goes well or not (`GreedyLearner.forgets`, `TrustAgent.forgets`, `Follower.forgets`).
So a reset makes of an agent what it would have made of it before any course of requests
(`Agent.Forgets.reset_after`).
-/
import Counsel.Proofs.Trust.Requests

namespace Counsel

open Outcome

variable {α γ κ : Type}

/-! ## Agents that forget -/

namespace Agent

/-- Two states of an agent that a reset does not tell apart. -/
def ResetAlike (reset : List ExpertId → κ → κ) (before after : κ) : Prop :=
  ∀ ids, reset ids after = reset ids before

instance (reset : List ExpertId → κ → κ) : Std.Refl (ResetAlike reset) := ⟨fun _ _ => rfl⟩

instance (reset : List ExpertId → κ → κ) : IsTrans κ (ResetAlike reset) :=
  ⟨fun _ _ _ h k ids => (k ids).trans (h ids)⟩

variable [Agent κ α]

variable (κ) in
/-- Agents that do nothing that a reset does not undo. -/
structure Forgets : Prop where
  reset : ∀ ids (agent : κ), ResetAlike Agent.reset agent (Agent.reset ids agent)
  act : ∀ state explore, Step.Keeps (ResetAlike Agent.reset) (Agent.act state explore : Step κ Assignment)
  learn : ∀ trial advice, Step.Keeps (ResetAlike Agent.reset) (Agent.learn trial advice : Step κ Unit)

/-- The agent after some requests, each of which may fail. -/
def after (requests : List (Request α)) (agent : κ) : κ :=
  requests.foldl (fun agent request => (answer (serve request) agent).2) agent

variable (forgets : Forgets κ)
include forgets

/-- One request. -/
theorem Forgets.serve_keeps (request : Request α) :
    Step.Keeps (ResetAlike Agent.reset) (serve request : Step κ (Option Assignment)) := by
  cases request with
  | reset experts => exact Step.Keeps.bind (forgets.reset experts) fun _ => .pure _
  | learn trial advice => exact (forgets.learn trial advice).bind fun _ => .pure _
  | act state explore =>
    rw [serve, map_eq_pure_bind]
    exact (forgets.act state explore).bind fun _ => .pure _

/-- Any course of requests. -/
theorem Forgets.reset_after (requests : List (Request α)) (agent : κ) (ids : List ExpertId) :
    Agent.reset ids (after requests agent) = Agent.reset ids agent := by
  induction requests generalizing agent with
  | nil => rfl
  | cons request rest ih => exact (ih _).trans (forgets.serve_keeps request agent ids)

end Agent

/-! ## The agents -/

variable [Scalar α] [RandomSource γ]

namespace GreedyLearner

theorem act_resetAlike (state : Assignment) (explore : Bool) (learner : GreedyLearner α γ) :
    (answer (act state explore) learner).2.reset = learner.reset := by
  obtain ⟨source, e⟩ := act_drawn state explore learner
  rw [e]
  rfl

theorem learn_resetAlike (trial : Trial α) (learner : GreedyLearner α γ) :
    (answer (learn trial) learner).2.reset = learner.reset := by
  have values := reset_learn trial learner
  rw [answer_learn] at values ⊢
  rcases moved : learner.values.update trial.state trial.action trial.reward with e | ⟨value, after⟩
  · rfl
  · rw [moved] at values
    exact congrArg (fun values => { learner.reset with values }) values

theorem forgets : Agent.Forgets (GreedyLearner α γ) where
  reset _ _ _ := rfl
  act state explore learner _ := act_resetAlike state explore learner
  learn trial _ learner _ := learn_resetAlike trial learner

/-- What comes about from a learner, whatever it is asked for; a random action can be asked for as well. -/
inductive Used (fresh : GreedyLearner α γ) : GreedyLearner α γ → Prop
  | fresh : Used fresh fresh
  | served {learner : GreedyLearner α γ} (request : Request α) (used : Used fresh learner) :
      Used fresh (answer (Agent.serve request) learner).2
  | drew {learner : GreedyLearner α γ} (used : Used fresh learner) :
      Used fresh (answer randomAction learner).2

theorem Used.reset_eq {fresh learner : GreedyLearner α γ} (used : Used fresh learner) :
    learner.reset = fresh.reset := by
  induction used with
  | fresh => rfl
  | served request _ ih => exact (forgets.serve_keeps request _ []).trans ih
  | @drew learner _ ih =>
    obtain ⟨source, e⟩ := randomAction_drawn learner
    rw [e]
    exact ih

end GreedyLearner

namespace TrustAgent

theorem forgets [Beta.Ranking α] : Agent.Forgets (TrustAgent α γ) where
  reset _ _ _ := rfl
  act := act_keeps fun _ _ _ _ _ => rfl
  learn := learn_keeps fun agent learned count values experts same ids => by
    show TrustAgent.reset ids _ = TrustAgent.reset ids agent
    rw [TrustAgent.reset, TrustAgent.reset, GreedyLearner.reset, GreedyLearner.reset]
    simp only [same]

end TrustAgent

namespace Follower

omit [Scalar α] in
/-- A step of the learner that a reset undoes. -/
theorem within_resetAlike {β : Type} {step : Step (GreedyLearner α γ) β}
    (kept : ∀ learner, (answer step learner).2.reset = learner.reset) :
    Step.Keeps (Agent.ResetAlike (Follower.reset : _ → Follower α γ → _))
      (step.within (·.base) fun agent base => { agent with base }) := by
  intro agent ids
  rw [Step.answer_within]
  show Follower.reset ids { agent with base := _ } = _
  rw [Follower.reset, Follower.reset, kept]

omit [Scalar α] in
theorem remember_resetAlike (state : Assignment) (entry : ExpertId × Assignment) :
    Step.Keeps (Agent.ResetAlike (Follower.reset : _ → Follower α γ → _)) (remember state entry) := by
  intro agent ids
  rw [remember, answer_get_bind]
  split
  · rfl
  next table _ =>
    rcases stored : table.set state (some entry.2) with e | ⟨old, after⟩
    · rfl
    · rfl

theorem forgets : Agent.Forgets (Follower α γ) where
  reset _ _ _ := rfl
  act state explore agent := by
    show Agent.ResetAlike Follower.reset agent (answer (Follower.act state explore) agent).2
    rw [Follower.act, answer_get_bind]
    rcases agent.advices state with e | advices
    · exact Std.Refl.refl agent
    · rw [Step.ofLayout_ok, pure_bind]
      split
      · exact within_resetAlike (GreedyLearner.act_resetAlike state explore) agent
      · exact fun _ => rfl
  learn trial advice :=
    (Step.Keeps.forM fun entry _ => remember_resetAlike trial.state entry).bind fun _ =>
      within_resetAlike (GreedyLearner.learn_resetAlike trial)

end Follower

end Counsel
