/-
An agent that trusts every expert: where advice for the state is remembered it follows one piece
picked at random, and elsewhere it acts as its learner does.
-/
import Counsel.Agent.Greedy

namespace Counsel

/-- A learner with the advice that each expert last gave in each state. -/
structure Follower (α γ : Type) where
  base : GreedyLearner α γ
  memory : NameMap (StateTable (Option Assignment))
  seed : UInt64
  source : γ

namespace Follower

variable {α γ : Type} [Scalar α] [RandomSource γ]

/-- A follower around a learner. -/
def ofLearner (base : GreedyLearner α γ) (seed : UInt64) : Follower α γ :=
  ⟨base, .empty, seed, RandomSource.ofSeed seed⟩

/-- The advice remembered for a state, in the order of the experts. -/
def advices (agent : Follower α γ) (state : Assignment) : Except LayoutError (List Assignment) := do
  return (← agent.memory.values.mapM fun table => table.get state).filterMap id

def act (state : Assignment) (explore : Bool) : Step (Follower α γ) Assignment := do
  let agent ← get
  let advices ← Step.ofLayout (agent.advices state)
  if advices.isEmpty then
    (GreedyLearner.act state explore).within (·.base) fun agent base => { agent with base }
  else
    let (pick, source) := RandomSource.below advices.length agent.source
    set { agent with source }
    return advices.getD pick .empty

/-- Remembers one piece of advice. -/
def remember (state : Assignment) (entry : ExpertId × Assignment) : Step (Follower α γ) Unit := do
  let agent ← get
  match agent.memory.get? entry.1 with
  | none => throw (.unknownExpert entry.1)
  | some table =>
    let (_, table) ← Step.ofLayout (table.set state (some entry.2))
    set { agent with memory := agent.memory.insert entry.1 table }

/-- Remembers the advice of a trial and lets the learner learn from it. -/
def learn (trial : Trial α) (advice : AdviceBundle) : Step (Follower α γ) Unit := do
  advice.given.forM (remember trial.state)
  (GreedyLearner.learn trial).within (·.base) fun agent base => { agent with base }

/-- The follower without experience, ready for some experts. -/
def reset (experts : List ExpertId) (agent : Follower α γ) : Follower α γ :=
  let base := agent.base.reset
  { agent with
    base
    source := RandomSource.ofSeed agent.seed
    memory := .ofList (experts.map (·, .replicate base.values.states none)) }

instance : Agent (Follower α γ) α where
  name _ := "Advice Follower"
  act := act
  learn := learn
  reset := reset
  takesAdvice _ := true
  history _ := none
  report _ := none

end Follower

end Counsel
