/-
Runs on a diagram. When the parts of a session keep to their side (`Session.Conduct`), no step of a
trial fails and the next trial can begin (`trial_yields`), so every number of trials is played to the
end, with a reward and a regret for each (`play_yields`). That is how a run against a panel and a run of
the learner alone go (`withPanel_yields`, `alone_yields`).
-/
import Counsel.Experiment
import Counsel.Proofs.Experiment.Environment
import Counsel.Proofs.Experiment.Experts

namespace Counsel

open Outcome

variable {d : Diagram Rat} {γ : Type} [RandomSource γ] {states actions : Layout}

/-! ## Records -/

namespace RunRecord

/-- A reward and a regret for each trial. -/
structure Complete (trials : Nat) (record : RunRecord Rat) : Prop where
  rewards : record.rewards.length = trials
  regret : ∃ regrets, record.regret = some regrets ∧ regrets.length = trials

/-- A complete record without a panel. -/
structure Alone (trials : Nat) (record : RunRecord Rat) : Prop where
  name : record.panel = none
  complete : record.Complete trials

end RunRecord

/-! ## Trials -/

namespace Session

variable {κ ω : Type} [Agent κ Rat]

/-- What the parts of a session keep to, trial by trial. The agent is `ready` at the start of the trial
of a number and has `acted` before it learns; the company is `present`; and the advice that it gives is
`fair`. -/
structure Conduct (d : Diagram Rat) (company : Company ω Rat) (ready acted : Nat → κ → Prop)
    (present : ω → Prop) (fair : AdviceBundle → Prop) : Prop where
  act : ∀ k {state}, d.Assigns .chance state →
    Step.Yields (ready k) (Agent.act state true) fun action agent =>
      acted k agent ∧ d.Assigns .decision action
  learn : ∀ k {trial advice}, d.Assigns .chance trial.state → d.Assigns .decision trial.action →
    fair advice → Step.Yields (acted k) (Agent.learn trial advice) fun _ => ready (k + 1)
  regret : ∃ tell, company.regret = some tell ∧ ∀ {state} reward, d.Possible state →
    Step.Yields present (tell state reward) fun _ => present
  advise : ∀ {state action}, d.Possible state → d.Assigns .decision action →
    Step.Yields present (company.advise state action) fun advice company =>
      present company ∧ fair advice

variable {ε : Type} {met met' : ε → Prop} {agent : κ → Prop} {present : ω → Prop}

/-- A session whose parts have these properties. -/
structure Holds (met : ε → Prop) (agent : κ → Prop) (present : ω → Prop) (session : Session ε κ ω) :
    Prop where
  environment : met session.environment
  agent : agent session.agent
  company : present session.company

section Parts

variable {β : Type}

omit [Agent κ Rat] in
theorem environmentStep_yields {step : Step ε β} {after : β → ε → Prop}
    (h : Step.Yields met step after) :
    Step.Yields (Holds met agent present) (environmentStep step) fun b =>
      Holds (after b) agent present :=
  h.within (fun _ s => s.environment) fun _ s _ _ k => { s with environment := k }

omit [Agent κ Rat] in
theorem agentStep_yields {step : Step κ β} {after : β → κ → Prop} (h : Step.Yields agent step after) :
    Step.Yields (Holds met agent present) (agentStep step) fun b => Holds met (after b) present :=
  h.within (fun _ s => s.agent) fun _ s _ _ k => { s with agent := k }

omit [Agent κ Rat] in
theorem companyStep_yields {step : Step ω β} {after : β → ω → Prop}
    (h : Step.Yields present step after) :
    Step.Yields (Holds met agent present) (companyStep step) fun b => Holds met agent (after b) :=
  h.within (fun _ s => s.company) fun _ s _ _ k => { s with company := k }

end Parts

variable {company : Company ω Rat} {ready acted : Nat → κ → Prop} {fair : AdviceBundle → Prop}

variable (d) in
/-- An environment of a diagram. -/
def On (env : DiagramEnvironment Rat γ) : Prop := env.diagram = d

/-- No step of a trial fails, there is a regret, and the next trial can begin. -/
theorem trial_yields (h : d.WellFormed) (likely : d.Likely)
    (conduct : Conduct d company ready acted present fair) (k : Nat) :
    Step.Yields (Holds (On (γ := γ) d) (ready k) present) (trial company) fun outcome session =>
      session.Holds (On d) (ready (k + 1)) present ∧ outcome.2.isSome = true := by
  obtain ⟨tell, told, tells⟩ := conduct.regret
  rw [trial, told]
  refine (environmentStep_yields (DiagramEnvironment.reset_yields h likely)).bind fun state => ?_
  refine Step.Yields.given (fun _ s => s.environment.possible) fun possible => ?_
  refine (agentStep_yields (conduct.act k possible.assigns)).bind fun action => ?_
  refine Step.Yields.given (fun _ s => s.agent.2) fun action_of => ?_
  have rewarded : Step.Yields (fun env : DiagramEnvironment Rat γ => DiagramEnvironment.Met d env state)
      (DiagramEnvironment.step action) fun _ => On d :=
    (DiagramEnvironment.step_yields h action_of).imp (fun _ k => k) fun _ _ k => k.1
  refine (environmentStep_yields rewarded).bind fun reward => ?_
  have regretted : Step.Yields (Holds (On (γ := γ) d) (acted k) present)
      (some <$> companyStep (tell state reward)) fun regret session =>
        session.Holds (On d) (acted k) present ∧ regret.isSome = true :=
    (companyStep_yields (tells reward possible)).map fun _ _ s => ⟨s, rfl⟩
  refine (regretted.of_imp fun _ s => { s with agent := s.agent.1 }).bind fun regret => ?_
  refine Step.Yields.given (fun _ s => s.2) fun given => ?_
  refine ((companyStep_yields (conduct.advise possible action_of)).of_imp fun _ s => s.1).bind
    fun advice => ?_
  refine Step.Yields.given (fun _ s => s.company.2) fun heard => ?_
  refine ((agentStep_yields (conduct.learn k possible.assigns action_of heard)).of_imp
    fun _ s => { s with company := s.company.1 }).bind fun _ => ?_
  exact Step.Yields.pure fun _ s => ⟨s, given⟩

end Session

namespace Run

section Play

variable {κ ω : Type} [Agent κ Rat] {company : Company ω Rat} {ready acted : Nat → κ → Prop}
  {present : ω → Prop} {fair : AdviceBundle → Prop}

/-- Every number of trials is played to the end, with a reward and a regret for each. -/
theorem play_yields (h : d.WellFormed) (likely : d.Likely)
    (conduct : Session.Conduct d company ready acted present fair) (trials : Nat) :
    Step.Yields (Session.Holds (Session.On (γ := γ) d) (ready 0) present) (play company trials)
      fun outcome session => session.Holds (Session.On d) (ready trials) present ∧
        outcome.1.length = trials ∧ ∃ regrets, outcome.2 = some regrets ∧ regrets.length = trials := by
  obtain ⟨tell, told, -⟩ := conduct.regret
  refine (Step.Yields.times (Session.trial_yields h likely conduct) trials 0).bind fun outcomes => ?_
  refine Step.Yields.pure fun session ⟨holds, length, given⟩ => ?_
  refine ⟨Nat.zero_add trials ▸ holds, by simpa using length, outcomes.filterMap (·.2), ?_, ?_⟩
  · rw [told, Option.map_some]
  · rw [← length, List.length_filterMap_eq_countP, List.countP_eq_length]
    exact given

end Play

/-! ## Companies -/

section Alone

variable {κ ω : Type} [Agent κ Rat] {company : Company ω Rat} {ready acted : Nat → κ → Prop}
  {present : ω → Prop} {fair : AdviceBundle → Prop}

/-- A run alone of an agent that keeps to its side once it is reset. -/
theorem alone_of_conduct (h : d.WellFormed) (likely : d.Likely)
    (conduct : Session.Conduct d company ready acted present fair) (trials : Nat) :
    Step.Yields
      (Session.Holds (Session.On (γ := γ) d) (fun agent => ready 0 (Agent.reset [] agent)) present)
      (alone company trials) fun record session => record.Alone trials ∧ present session.company := by
  have forgotten : Step.Yields
      (Session.Holds (Session.On (γ := γ) d) (fun agent => ready 0 (Agent.reset [] agent)) present)
      (modify fun session => { session with agent := Agent.reset [] session.agent }) fun _ =>
        Session.Holds (Session.On d) (ready 0) present :=
    Step.Yields.change fun _ s => { s with agent := s.agent }
  refine forgotten.bind fun _ => (play_yields h likely conduct trials).bind fun outcome => ?_
  refine Step.Yields.read_bind fun _ ⟨_, rewards, regret⟩ => ?_
  exact Step.Yields.pure fun _ k => ⟨⟨rfl, rewards, regret⟩, k.1.company⟩

end Alone

end Run

end Counsel
