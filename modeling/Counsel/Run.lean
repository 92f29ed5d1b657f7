/-
Runs: an agent meets an environment for a number of trials, alone or with a panel of experts. In a
trial a state comes up, the agent acts, the reward is paid, the experts speak, and the agent learns
from the reward and from what they said.
-/
import Counsel.Environment
import Counsel.Expert.Panel

namespace Counsel

/-- What came of a run. -/
structure RunRecord (α : Type) where
  agent : String
  panel : Option String
  rewards : List α
  /-- How far each reward fell short of the best expected utility, if an oracle was at hand. -/
  regret : Option (List α)
  /-- What each expert was thought of at each action. -/
  reliability : Option (NameMap (Array α))
  /-- What each expert is thought of after the last trial. -/
  finalReliability : Option (NameMap (ReliabilitySummary α))

namespace RunRecord

variable {α : Type} [Scalar α]

def totalReward (record : RunRecord α) : α := Scalar.total record.rewards

def meanReward (record : RunRecord α) : α :=
  if record.rewards.isEmpty then 0
  else record.totalReward / Scalar.ofNat record.rewards.length

/-- All regrets together. -/
def cumulativeRegret (record : RunRecord α) : Option α := record.regret.map Scalar.total

end RunRecord

/-- Those who attend a run beside the agent, with their state `ω`. -/
structure Company (ω α : Type) where
  /-- The regret of a reward in a state, if there is an oracle to tell it. -/
  regret : Option (Assignment → α → Step ω α)
  /-- What experts say about an action in a state. -/
  advise : Assignment → Assignment → Step ω AdviceBundle

namespace Company

variable {α γ : Type} [Scalar α] [RandomSource γ]

/-- The regret of a reward: what the best action in the state is worth, less the reward. -/
def regretOf (state : Assignment) (reward : α) : Step (Oracle α) α :=
  return (← Oracle.bestExpectedUtility state) - reward

/-- A question to the oracle that attends beside a panel. -/
def ofOracle {β : Type} (step : Step (Oracle α) β) : Step (Panel α γ × Oracle α) β :=
  step.within (·.2) fun both oracle => (both.1, oracle)

/-- An oracle and no experts; whether the oracle tells the regret. -/
def oracle (watched : Bool) : Company (Oracle α) α where
  regret := if watched then some regretOf else none
  advise _ _ := return .empty

/-- A panel with the oracle that its experts consult; whether the oracle also tells the regret. -/
def panel (watched : Bool) : Company (Panel α γ × Oracle α) α where
  regret :=
    if watched then some fun state reward => ofOracle (regretOf state reward) else none
  advise := Panel.advise

end Company

/-- All who take part in a run. -/
structure Session (ε κ ω : Type) where
  environment : ε
  agent : κ
  company : ω

namespace Session

variable {ε κ ω α β : Type}

/-- A step of the environment. -/
def environmentStep (step : Step ε β) : Step (Session ε κ ω) β :=
  step.within (·.environment) fun session environment => { session with environment }

/-- A step of the agent. -/
def agentStep (step : Step κ β) : Step (Session ε κ ω) β :=
  step.within (·.agent) fun session agent => { session with agent }

/-- A step of the company. -/
def companyStep (step : Step ω β) : Step (Session ε κ ω) β :=
  step.within (·.company) fun session company => { session with company }

/-- One trial: its reward, and its regret if there is an oracle. -/
def trial [Environment ε α] [Agent κ α] (company : Company ω α) :
    Step (Session ε κ ω) (α × Option α) := do
  let state ← environmentStep Environment.reset
  let action ← agentStep (Agent.act state true)
  let reward ← environmentStep (Environment.step action)
  let regret ← company.regret.mapM fun regret => companyStep (regret state reward)
  let advice ← companyStep (company.advise state action)
  agentStep (Agent.learn ⟨state, action, reward⟩ advice)
  return (reward, regret)

end Session

namespace Run

variable {ε κ ω α γ : Type} [Scalar α] [RandomSource γ] [Environment ε α] [Agent κ α]

/-- A number of trials: the rewards, and the regrets if there is an oracle. -/
def play (company : Company ω α) (trials : Nat) :
    Step (Session ε κ ω) (List α × Option (List α)) := do
  let outcomes ← (Session.trial company).times trials
  return (outcomes.map (·.1), company.regret.map fun _ => outcomes.filterMap (·.2))

/-- Runs an agent against a panel. Agent and panel forget what was before. -/
def withPanel (trials : Nat) (watched : Bool) :
    Step (Session ε κ (Panel α γ × Oracle α)) (RunRecord α) := do
  modify fun session =>
    { session with
      agent := Agent.reset session.company.1.ids session.agent
      company := (session.company.1.reset, session.company.2) }
  let (rewards, regret) ← play (Company.panel watched) trials
  let session ← get
  return ⟨Agent.name session.agent, some session.company.1.name, rewards, regret,
    Agent.history session.agent, Agent.report session.agent⟩

/-- Runs an agent without experts. The agent forgets what was before. -/
def alone (company : Company ω α) (trials : Nat) : Step (Session ε κ ω) (RunRecord α) := do
  modify fun session => { session with agent := Agent.reset [] session.agent }
  let (rewards, regret) ← play company trials
  return ⟨Agent.name (← get).agent, none, rewards, regret, none, none⟩

end Run

end Counsel
