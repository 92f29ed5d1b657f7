/-
A learner that is greedy in the long run. While it explores it takes its best action only if that
one is worth more than the aspiration level, and acts at random otherwise; the level sinks as
trials go by.
-/
import Counsel.Agent.ActionValues
import Counsel.Agent.Basic
import Counsel.Oracle
import Counsel.Random.Source

namespace Counsel

/-- Estimates with an aspiration level and a source of random actions. -/
structure GreedyLearner (α γ : Type) where
  values : ActionValues α
  aspiration : Schedule α
  trials : Nat
  learned : Nat
  seed : UInt64
  source : γ

namespace GreedyLearner

variable {α γ : Type} [Scalar α] [RandomSource γ]

def ofConfig (states actions : Layout) (config : LearnerConfig α) (trials : Nat) (seed : UInt64) :
    Except Error (GreedyLearner α γ) :=
  match Check.trials trials with
  | .error e => .error (.config e)
  | .ok () => do
    let values ← ActionValues.ofConfig states actions config
    return ⟨values, config.aspiration, trials, 0, seed, RandomSource.ofSeed seed⟩

def ofDiagram (d : Diagram α) (config : LearnerConfig α) (trials : Nat) (seed : UInt64) :
    Except Error (GreedyLearner α γ) :=
  match d.stateLayout, d.actionLayout with
  | .error e, _ => .error (.layout e)
  | _, .error e => .error (.layout e)
  | .ok states, .ok actions => ofConfig states actions config trials seed

/-- What the best action must be worth now. -/
def aspirationLevel (learner : GreedyLearner α γ) : α :=
  learner.aspiration.level learner.trials learner.learned

/-- A random joint action. -/
def randomAction : Step (GreedyLearner α γ) Assignment := do
  let learner ← get
  let (index, source) := RandomSource.below learner.values.actions.size learner.source
  set { learner with source }
  Step.ofLayout (learner.values.actions.assignmentAt index)

/-- The best action in a state, or a random one if that one is not good enough to be explored. -/
def act (state : Assignment) (explore : Bool) : Step (GreedyLearner α γ) Assignment := do
  let learner ← get
  let (action, value) ← Step.ofLayout (learner.values.greedy state)
  if !explore || decide (learner.aspirationLevel < value) then return action
  randomAction

/-- Counts a trial and moves the estimate of its state and action. -/
def learn (trial : Trial α) : Step (GreedyLearner α γ) Unit := do
  modify fun learner => { learner with learned := learner.learned + 1 }
  let learner ← get
  let (_, values) ← Step.ofLayout (learner.values.update trial.state trial.action trial.reward)
  set { learner with values }

def reset (learner : GreedyLearner α γ) : GreedyLearner α γ :=
  { learner with
    values := learner.values.reset
    learned := 0
    source := RandomSource.ofSeed learner.seed }

instance : Agent (GreedyLearner α γ) α where
  name _ := "Greedy"
  act := act
  learn trial _ := learn trial
  reset _ := reset
  takesAdvice _ := false
  history _ := none
  report _ := none

end GreedyLearner

/-- An oracle as an agent: it plays the optimal policy and learns nothing. -/
structure OracleAgent (α : Type) where
  oracle : Oracle α

instance {α : Type} [Scalar α] : Agent (OracleAgent α) α where
  name _ := "True Policy"
  act state _ := (Oracle.act state).within (·.oracle) fun _ oracle => ⟨oracle⟩
  learn _ _ := return ()
  reset _ agent := agent
  takesAdvice _ := false
  history _ := none
  report _ := none

end Counsel
