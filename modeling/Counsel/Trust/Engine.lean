/-
An agent that weighs the advice of unreliable experts around a value learner. When it exploits, it
acts as the learner would. When it explores, it looks at the advice that each expert last gave for
the state and follows it or acts at random. After each trial the advice for its state is judged by
what the learner has made of it, and the belief about the expert moves accordingly.

An expert of reliability `ρ` is taken to name the best of `n` actions with probability `ρ` and each
other action with probability `(1 - ρ) / (n - 1)`.
-/
import Counsel.Agent.Greedy
import Counsel.Trust.Belief

namespace Counsel

/-- What is kept about an expert: the belief, and the advice last given in each state. -/
structure Acquaintance (α : Type) where
  belief : Belief α
  memory : StateTable (Option Assignment)

/-- A learner with what is kept about the experts. -/
structure TrustAgent (α γ : Type) where
  name : String
  base : GreedyLearner α γ
  config : TrustConfig α
  trials : Nat
  learned : Nat
  experts : NameMap (Acquaintance α)
  history : NameMap (Array α)
  source : γ

namespace TrustAgent

variable {α γ : Type} [Scalar α] [RandomSource γ]

/-- The probability level of the ranges in reports. -/
def reportLevel : α := 0.9

/-- An agent around a learner; `trials` is the horizon of exploration. -/
def ofConfig (base : GreedyLearner α γ) (config : TrustConfig α) (trials : Nat) :
    Except Error (TrustAgent α γ) :=
  match (do Check.trust config; Check.trials trials : Check) with
  | .error e => .error (.config e)
  | .ok () =>
    let name := match config.mode with
      | .bayesian => "CLUE"
      | .naive => "Naive CLUE"
    .ok ⟨name, base, config, trials, 0, .empty, .empty, RandomSource.ofSeed config.seed⟩

/-- The joint actions. -/
def actions (agent : TrustAgent α γ) : Layout := agent.base.values.actions

/-- The probability that the next action explores. -/
def epsilon (agent : TrustAgent α γ) : α :=
  agent.config.exploration.level agent.trials agent.learned

/-- The reliability estimate for an expert. -/
def rho? (agent : TrustAgent α γ) (expert : ExpertId) : Option α :=
  (agent.experts.get? expert).map (·.belief.rho)

/-- The belief about an expert. -/
def belief? (agent : TrustAgent α γ) (expert : ExpertId) : Option (Belief α) :=
  (agent.experts.get? expert).map (·.belief)

/-- The advice that an expert last gave for a state. -/
def remembered (agent : TrustAgent α γ) (expert : ExpertId) (state : Assignment) :
    Except Error (Option Assignment) :=
  match agent.experts.get? expert with
  | none => .error (.unknownExpert expert)
  | some known => (known.memory.get state).mapError .layout

/-! ## Weighing advice -/

/-- The advice remembered for a state, with the reliability of each expert that gave it. -/
def advices (agent : TrustAgent α γ) (state : Assignment) :
    Except LayoutError (List (α × Assignment)) := do
  let entries ← agent.experts.values.mapM fun known => do
    return (← known.memory.get state).map (known.belief.rho, ·)
  return entries.filterMap id

/-- How likely an expert of reliability `rho` advises the action `advised` if `action` is the best
of `n`. -/
def likelihood (n : Nat) (rho : α) (advised action : Nat) : α :=
  if action = advised then rho
  else if 1 < n then (1 - rho) / Scalar.ofNat (n - 1)
  else 0

/-- Numbers for each action, times the likelihood of a piece of advice. -/
def weigh (n : Nat) (weights : List α) (rho : α) (advised : Nat) : List α :=
  weights.zipIdx.map fun (w, action) => w * likelihood n rho advised action

/-- The probability of each of `n` actions being the best one, given which action each piece of
advice names and how reliable its expert is. Nothing if the advice rules out every action. -/
def posteriorOf (n : Nat) (named : List (α × Nat)) : Option (List α) :=
  Scalar.normalize
    (named.foldl (fun weights (rho, advised) => weigh n weights rho advised) (List.replicate n 1))

/-- The probability of each joint action being the best one, in the order of the actions, given the
advice for a state. Nothing if there is none, or if it rules out every action. -/
def posterior (agent : TrustAgent α γ) (state : Assignment) :
    Except LayoutError (Option (List α)) := do
  let advices ← agent.advices state
  if advices.isEmpty then return none
  let named ← advices.mapM fun (rho, advice) => return (rho, ← agent.actions.indexOf advice)
  return posteriorOf agent.actions.size named

/-- The better of the advice chosen so far and another; the earlier one if equally reliable. -/
def moreReliable (best : Option (α × Assignment)) (next : α × Assignment) :
    Option (α × Assignment) :=
  match best with
  | none => some next
  | some b => if b.1 < next.1 then some next else some b

/-- The most reliable expert's advice for a state, with its reliability. -/
def mostReliable (agent : TrustAgent α γ) (state : Assignment) :
    Except LayoutError (Option (α × Assignment)) := do
  return (← agent.advices state).foldl moreReliable none

/-! ## Acting -/

/-- A draw from `[0, 1)`. -/
def fraction : Step (TrustAgent α γ) α := do
  let agent ← get
  let (u, source) := RandomSource.fraction agent.source
  set { agent with source }
  return u

/-- A random joint action. -/
def randomAction : Step (TrustAgent α γ) Assignment := do
  let agent ← get
  let (index, source) := RandomSource.below agent.actions.size agent.source
  set { agent with source }
  Step.ofLayout (agent.actions.assignmentAt index)

/-- The first most probable action if its probability is at least the threshold and a draw falls
below it; otherwise a random one. -/
def followPosterior (state : Assignment) : Step (TrustAgent α γ) Assignment := do
  let agent ← get
  match ← Step.ofLayout (agent.posterior state) with
  | none => randomAction
  | some posterior =>
    let best := (Scalar.argmaxFirst posterior).getD 0
    let confidence := posterior.getD best 0
    if confidence < agent.config.thresholdFor agent.actions.size then randomAction
    else
      let action ← Step.ofLayout (agent.actions.assignmentAt best)
      let u ← fraction
      if u < confidence then return action else randomAction

/-- The advice of the most reliable expert if a draw falls below its reliability; otherwise a
random action. -/
def followBest (state : Assignment) : Step (TrustAgent α γ) Assignment := do
  match ← Step.ofLayout ((← get).mostReliable state) with
  | none => randomAction
  | some (rho, advice) =>
    let u ← fraction
    if u < rho then return advice else randomAction

/-- What each expert is thought of is noted before each action. -/
def note (agent : TrustAgent α γ) : TrustAgent α γ :=
  { agent with
    history := agent.history.mapEntries fun id trace =>
      match agent.rho? id with
      | some rho => trace.push rho
      | none => trace }

/-- An action as the learner would choose it. -/
def exploit (state : Assignment) : Step (TrustAgent α γ) Assignment :=
  (GreedyLearner.act state false).within (·.base) fun agent base => { agent with base }

/-- An action by the mode of the agent. -/
def explore (state : Assignment) : Step (TrustAgent α γ) Assignment := do
  let agent ← get
  if agent.actions.size = 1 then Step.ofLayout (agent.actions.assignmentAt 0)
  else match agent.config.mode with
    | .bayesian => followPosterior state
    | .naive => followBest state

def act (state : Assignment) (mayExplore : Bool) : Step (TrustAgent α γ) Assignment := do
  modify note
  if !mayExplore then exploit state
  else
    let u ← fraction
    if (← get).epsilon ≤ u then exploit state else explore state

/-! ## Learning -/

/-- Takes in the advice that one expert gave in a trial and judges the advice that counts: fresh
advice, or with regular updates whatever is remembered for the state. Advice is optimal if the
learner thinks no action better. -/
def judge (trial : Trial α) (expert : ExpertId) (fresh : Option Assignment) :
    Step (TrustAgent α γ) Unit := do
  let agent ← get
  match agent.experts.get? expert with
  | none => return ()
  | some known =>
    let memory ← match fresh with
      | none => pure known.memory
      | some advice => do
        let (_, memory) ← Step.ofLayout (known.memory.set trial.state (some advice))
        pure memory
    let known := { known with memory }
    set { agent with experts := agent.experts.insert expert known }
    let judged ← if agent.config.regularUpdate then Step.ofLayout (memory.get trial.state)
      else pure fresh
    match judged with
    | none => return ()
    | some advice =>
      let values ← Step.ofLayout (agent.base.values.stateValues trial.state)
      let value ← Step.ofLayout (agent.base.values.value trial.state advice)
      let optimal := (Scalar.largest values).all (· ≤ value)
      let known := { known with belief := known.belief.record optimal }
      set { agent with experts := agent.experts.insert expert known }

/-- Lets the learner learn from a trial and judges the advice of each expert in turn. Advice from
an expert that is not known is refused before anything is learned. -/
def learn (trial : Trial α) (advice : AdviceBundle) : Step (TrustAgent α γ) Unit := do
  let agent ← get
  match advice.names.find? fun id => !agent.experts.contains id with
  | some id => throw (.unknownExpert id)
  | none =>
    modify fun agent => { agent with learned := agent.learned + 1 }
    (GreedyLearner.learn trial).within (·.base) fun agent base => { agent with base }
    agent.experts.names.forM fun id => judge trial id (advice.advice? id)

/-- The agent without experience, ready for some experts. -/
def reset (experts : List ExpertId) (agent : TrustAgent α γ) : TrustAgent α γ :=
  let base := agent.base.reset
  let stranger : Acquaintance α :=
    ⟨.ofConfig agent.config, .replicate base.values.states none⟩
  { agent with
    base
    learned := 0
    source := RandomSource.ofSeed agent.config.seed
    experts := .ofList (experts.map (·, stranger))
    history := .ofList (experts.map (·, #[])) }

instance [Beta.Ranking α] : Agent (TrustAgent α γ) α where
  name agent := agent.name
  act := act
  learn := learn
  reset := reset
  takesAdvice _ := true
  history agent := some agent.history
  report agent := some (agent.experts.mapEntries fun _ known => known.belief.summary reportLevel)

end TrustAgent

end Counsel
