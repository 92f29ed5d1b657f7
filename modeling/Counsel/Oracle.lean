/-
The oracle of a diagram: the optimal joint action in a state, and what an action is worth in a
state. The diagram is solved once. Answers about complete states are kept, and answers about
partial states are worked out anew.
-/
import Counsel.Error
import Counsel.Inference.Solve
import Counsel.StateTable

namespace Counsel

/-- A solved diagram with the answers given so far. -/
structure Oracle (α : Type) where
  diagram : Diagram α
  solution : Solution α
  /-- The chance variables, parents before children. -/
  states : Layout
  /-- The decisions in the order in which they are made. -/
  actions : Layout
  policy : StateTable (Option Assignment)
  utilities : StateTable (Option α)
  /-- How many factor numbers are given out. -/
  issued : Nat

/-- The layout of some variables. -/
def Layout.ofVariables (vars : List Variable) : Except LayoutError Layout :=
  Layout.ofPlaces (vars.map fun v => (v.name, v.domain))

namespace Diagram

variable {α : Type}

/-- The layout of the states of a diagram. -/
def stateLayout (d : Diagram α) : Except LayoutError Layout :=
  Layout.ofVariables (d.pick d.chanceOrder)

/-- The layout of the joint actions of a diagram. -/
def actionLayout (d : Diagram α) : Except LayoutError Layout :=
  Layout.ofVariables (d.pick d.decisionOrder)

end Diagram

namespace Oracle

variable {α : Type} [Scalar α]

/-- The oracle of a diagram of which some factor numbers are given out. -/
def ofDiagram (d : Diagram α) : Except Error (Oracle α) :=
  let (solved, issued) := (d.solve NameMap.empty).run.run d.tableCount
  match solved with
  | .error e => .error (.inference e)
  | .ok solution => do
    let layouts : Except LayoutError (Layout × Layout × Layout) := do
      let states ← d.stateLayout
      let actions ← d.actionLayout
      return (states, actions, ← states.join actions)
    match layouts with
    | .error e => throw (.layout e)
    | .ok (states, actions, joint) =>
      return ⟨d, solution, states, actions, .replicate states none, .replicate joint none, issued⟩

def maxExpectedUtility (oracle : Oracle α) : α := oracle.solution.expectedUtility

/-- A step of inference on the diagram of an oracle. -/
def infer {β : Type} (step : Diagram α → Infer β) : Step (Oracle α) β := fun oracle =>
  let (result, issued) := (step oracle.diagram).run.run oracle.issued
  (result.mapError .inference, { oracle with issued })

/-- The optimal joint action in a state, from the solution. -/
def computeAction (oracle : Oracle α) (state : Assignment) : Except ModelError Assignment := do
  let slots ← oracle.diagram.slotsOf (oracle.states.restrict state)
  let chosen ← oracle.solution.act slots
  oracle.diagram.assignmentOf (slots.setAll chosen) (chosen.map (·.1))

/-- The answer in a cell of a table of answers, if there is one. -/
def kept {β : Type} (table : StateTable (Option β)) (index : Option Nat) : Option β :=
  index.bind fun i => (table.at? i).join

/-- A table with an answer put into a cell. -/
def keep {β : Type} (table : StateTable (Option β)) (index : Option Nat) (answer : β) :
    StateTable (Option β) :=
  match index with
  | some i => table.setAt i (some answer)
  | none => table

def act (state : Assignment) : Step (Oracle α) Assignment := do
  let oracle ← get
  let index := (oracle.states.indexOf state).toOption
  match kept oracle.policy index with
  | some action => return action
  | none =>
    let action ← Step.ofModel (oracle.computeAction state)
    modify fun oracle => { oracle with policy := keep oracle.policy index action }
    return action

def expectedUtility (state action : Assignment) : Step (Oracle α) α := do
  let key := Assignment.merge state action
  let oracle ← get
  let index := (oracle.utilities.layout.indexOf key).toOption
  match kept oracle.utilities index with
  | some value => return value
  | none =>
    let solution ← infer fun d => d.solve key
    let value := solution.expectedUtility
    modify fun oracle => { oracle with utilities := keep oracle.utilities index value }
    return value

/-- The expected utility of the optimal action in a state. -/
def bestExpectedUtility (state : Assignment) : Step (Oracle α) α := do
  expectedUtility state (← act state)

end Oracle

end Counsel
