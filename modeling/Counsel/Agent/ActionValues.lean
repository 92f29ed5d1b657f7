/-
Estimates of what each joint action is worth in each state. The cells of the actions of one state
are neighbours. An estimate moves towards each reward, by a fixed step or so that it stays the
average of the rewards.
-/
import Counsel.Config.Settings
import Counsel.Error
import Counsel.Scalar.Weights
import Counsel.StateTable

namespace Counsel

/-- Estimates for each state and joint action, and how often each pair was tried. -/
structure ActionValues (α : Type) where
  states : Layout
  actions : Layout
  values : StateTable α
  visits : StateTable Nat
  initialValue : α
  learningRate : Option α

namespace ActionValues

variable {α : Type} [Scalar α]

def ofConfig (states actions : Layout) (config : LearnerConfig α) :
    Except Error (ActionValues α) :=
  match Check.learner config with
  | .error e => .error (.config e)
  | .ok () =>
    match states.join actions with
    | .error e => .error (.layout e)
    | .ok joint =>
      .ok ⟨states, actions, .replicate joint config.initialValue, .replicate joint 0,
        config.initialValue, config.learningRate⟩

/-- The index of the cell of a state and a joint action. -/
def cell (q : ActionValues α) (state action : Assignment) : Except LayoutError Nat := do
  let s ← q.states.indexOf state
  let a ← q.actions.indexOf action
  return s * q.actions.size + a

/-- The estimate in a cell after the `count`-th reward. -/
def improved (q : ActionValues α) (old reward : α) (count : Nat) : α :=
  let step := q.learningRate.getD (1 / Scalar.ofNat count)
  old + step * (reward - old)

/-- The new estimate for a state and a joint action after a reward, and all estimates. -/
def update (q : ActionValues α) (state action : Assignment) (reward : α) :
    Except LayoutError (α × ActionValues α) := do
  let i ← q.cell state action
  let count := (q.visits.at? i).getD 0 + 1
  let value := q.improved ((q.values.at? i).getD q.initialValue) reward count
  return (value, { q with values := q.values.setAt i value, visits := q.visits.setAt i count })

def value (q : ActionValues α) (state action : Assignment) : Except LayoutError α := do
  return (q.values.at? (← q.cell state action)).getD q.initialValue

def visitCount (q : ActionValues α) (state action : Assignment) : Except LayoutError Nat := do
  return (q.visits.at? (← q.cell state action)).getD 0

/-- The estimates for all joint actions in a state, in the order of the actions. -/
def stateValues (q : ActionValues α) (state : Assignment) : Except LayoutError (List α) := do
  let start := (← q.states.indexOf state) * q.actions.size
  return (q.values.cells.extract start (start + q.actions.size)).toList

/-- All joint actions with their estimates in a state. -/
def scores (q : ActionValues α) (state : Assignment) :
    Except LayoutError (List (Assignment × α)) := do
  return q.actions.assignments.zip (← q.stateValues state)

/-- The first joint action with the highest estimate in a state, and that estimate. -/
def greedy (q : ActionValues α) (state : Assignment) : Except LayoutError (Assignment × α) := do
  let values ← q.stateValues state
  let best := (Scalar.argmaxFirst values).getD 0
  return (← q.actions.assignmentAt best, values.getD best q.initialValue)

def reset (q : ActionValues α) : ActionValues α :=
  { q with values := q.values.fill q.initialValue, visits := q.visits.fill 0 }

end ActionValues

end Counsel
