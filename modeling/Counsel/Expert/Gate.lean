/-
When an expert speaks. A gate adds up what the best action and the action taken are worth, trial by
trial. It opens when enough trials have passed since it last opened and the average regret over
them is at least the tolerance; then it starts again from zero.
-/
import Counsel.Config.Settings

namespace Counsel

/-- The sums since the gate last opened. -/
structure Gate (α : Type) where
  config : DisclosureConfig α
  trial : Nat
  lastOpening : Nat
  optimalSum : α
  agentSum : α

namespace Gate

variable {α : Type} [Scalar α]

/-- A gate before the first trial. -/
def start (config : DisclosureConfig α) : Gate α := ⟨config, 0, 0, 0, 0⟩

/-- How many trials have passed since the gate last opened. -/
def elapsed (gate : Gate α) : Nat := gate.trial - gate.lastOpening

/-- The average regret since the gate last opened. -/
def averageRegret (gate : Gate α) : α :=
  if gate.elapsed = 0 then 0
  else (gate.optimalSum - gate.agentSum) / Scalar.ofNat gate.elapsed

/-- One more trial, with what the best action and the action taken are worth in it. -/
def add (gate : Gate α) (optimal agent : α) : Gate α :=
  { gate with
    trial := gate.trial + 1
    optimalSum := gate.optimalSum + optimal
    agentSum := gate.agentSum + agent }

/-- Whether the gate opens after a trial, and the gate then. -/
def observe (gate : Gate α) (optimal agent : α) : Bool × Gate α :=
  let gate := gate.add optimal agent
  if gate.elapsed < gate.config.interval then (false, gate)
  else if gate.averageRegret < gate.config.tolerance then (false, gate)
  else (true, { gate with lastOpening := gate.trial, optimalSum := 0, agentSum := 0 })

def reset (gate : Gate α) : Gate α := start gate.config

end Gate

end Counsel
