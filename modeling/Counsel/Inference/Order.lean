/-
Elimination orders. The order for a decision problem is built from its end: before each decision
stand the chance variables that neither it nor an earlier decision observes, and after the first
decision all that are left.
-/
import Counsel.Diagram.Basic

namespace Counsel

/-- The variables to eliminate, first to last. -/
structure EliminationOrder where
  ids : List VarId
  deriving DecidableEq

namespace EliminationOrder

variable {α : Type}

/-- The order of a list of names. -/
def ofNames (d : Diagram α) (names : List String) : Except ModelError EliminationOrder := do
  return ⟨← names.mapM fun name => return (← d.lookup name).id⟩

/-- The names in the order; ids that the diagram does not have are left out. -/
def names (order : EliminationOrder) (d : Diagram α) : List String :=
  (d.pick order.ids).map (·.name)

/-- The part of an order up to and with the last of some decisions, which are listed latest first:
for each of them the pending variables that no decision up to it observes, and the decision. Then
come the variables that are still pending. -/
def backward (d : Diagram α) (pending : List VarId) : List VarId → List VarId
  | [] => pending
  | decision :: earlier =>
    let observable := (decision :: earlier).flatMap d.parentsOf
    let (later, now) := pending.partition observable.contains
    now ++ decision :: backward d later earlier

/-- The order in which to solve a diagram with some variables observed. -/
def forEvidence (d : Diagram α) (observed : Slots) : EliminationOrder :=
  let requisite := d.requisiteChance observed
  let pending := d.chanceOrder.reverse.filter fun id =>
    requisite.getD id.index false && !observed.isAssigned id
  let decisions := d.decisionOrder.filter fun id => !observed.isAssigned id
  ⟨backward d pending decisions.reverse⟩

/-- The order in which to solve a diagram without observations. -/
def forDecisions (d : Diagram α) : EliminationOrder := forEvidence d Slots.empty

/-- All chance variables, children before parents. -/
def reverseTopological (d : Diagram α) : EliminationOrder := ⟨d.chanceOrder.reverse⟩

end EliminationOrder

end Counsel
