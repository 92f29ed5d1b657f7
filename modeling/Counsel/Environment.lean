/-
Environments, which an agent meets trial by trial: a state comes up, the agent acts, and a reward is
paid. A diagram is an environment: its chance variables are drawn from their tables, parents first,
and its utility table pays.
-/
import Counsel.Error
import Counsel.Diagram.Basic
import Counsel.Random.Source

namespace Counsel

/-- A kind of environment with states `ε`. -/
class Environment (ε : Type) (α : outParam Type) where
  /-- Begins the next trial: the state that comes up. -/
  reset : Step ε Assignment
  /-- The reward of an action in the current state. -/
  step : Assignment → Step ε α

namespace Row

variable {α : Type} [Scalar α]

/-- The first position at which the sum of the probabilities so far exceeds `u`. -/
def firstAbove (u sum : α) (position : Nat) : List α → Option Nat
  | [] => none
  | p :: rest => if u < sum + p then some position else firstAbove u (sum + p) (position + 1) rest

/-- The last position with a positive probability. -/
def lastPositive (row : List α) : Option Nat :=
  (row.zipIdx.filter fun entry => decide (0 < entry.1)).getLast?.map (·.2)

/-- The position that a draw `u` from `[0, 1)` selects. If a row sums to slightly less than one, a
draw past its end selects the last position that is possible. -/
def pick (u : α) (row : List α) : Nat :=
  (firstAbove u 0 0 row).getD ((lastPositive row).getD 0)

end Row

/-- A diagram with a source of draws and the state that came up last. -/
structure DiagramEnvironment (α γ : Type) where
  diagram : Diagram α
  seed : UInt64
  source : γ
  state : Assignment

namespace DiagramEnvironment

variable {α γ : Type} [Scalar α] [RandomSource γ]

def ofDiagram (diagram : Diagram α) (seed : UInt64) : DiagramEnvironment α γ :=
  ⟨diagram, seed, RandomSource.ofSeed seed, .empty⟩

/-- Selects a position of a row at random. -/
def sample (row : List α) : Step (DiagramEnvironment α γ) Nat := do
  let env ← get
  let (u, source) := RandomSource.fraction env.source
  set { env with source }
  return Row.pick u row

/-- Draws some chance variables one after the other, given the positions of their parents. -/
def drawAll : List VarId → Slots → Step (DiagramEnvironment α γ) Slots
  | [], slots => return slots
  | id :: rest, slots => do
    match (← get).diagram.cpt? id with
    | none => drawAll rest slots
    | some cpt =>
      let position ← sample (← Step.ofModel (cpt.row slots))
      drawAll rest (slots.set id (some position))

def reset : Step (DiagramEnvironment α γ) Assignment := do
  let diagram := (← get).diagram
  let order := diagram.chanceOrder
  let slots ← drawAll order .empty
  let state ← Step.ofModel (diagram.assignmentOf slots order)
  modify fun env => { env with state }
  return state

/-- What the utility table pays for an action in the current state. -/
def step (action : Assignment) : Step (DiagramEnvironment α γ) α := do
  let env ← get
  Step.ofModel (env.diagram.utilityAt (Assignment.merge env.state action))

def reseed (env : DiagramEnvironment α γ) : DiagramEnvironment α γ :=
  { env with source := RandomSource.ofSeed env.seed }

instance : Environment (DiagramEnvironment α γ) α where
  reset := reset
  step := step

end DiagramEnvironment

end Counsel
