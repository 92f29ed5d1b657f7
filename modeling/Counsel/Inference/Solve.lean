/-
Solving a diagram by eliminating its variables: chance variables are summed out and decisions
maximised out, in a given order. A decision can be maximised out when one factor mentions it and
that factor depends only on what the decision observes; the maximum is then its decision rule. A
decision that no factor mentions cannot matter and takes its first value.
-/
import Counsel.Inference.Query

namespace Counsel

/-- The best choice for a decision, as a function of what its factor depends on. -/
structure DecisionRule (α : Type) where
  decision : Variable
  /-- The maximum over the decision; nothing for a decision that does not matter. -/
  factor : Option (Factor α)

/-- The maximum expected utility, and a rule for each decision that is not observed, in the order
in which the decisions are made. -/
structure Solution (α : Type) where
  expectedUtility : α
  rules : List (DecisionRule α)

namespace DecisionRule

variable {α : Type} [Scalar α]

/-- The variables that a rule reads. -/
def inputs (rule : DecisionRule α) : List Variable := rule.factor.elim [] (·.scope.vars)

/-- The position of the best choice under the current positions. -/
def choose (rule : DecisionRule α) : Evaluate α Nat :=
  match rule.factor with
  | some f => return (← f.memoArgmax).getD 0
  | none => return 0

/-- The value at a position of the decision. -/
def valueAt (rule : DecisionRule α) (position : Nat) : Evaluate α Value :=
  match rule.decision.domain[position]? with
  | some value => return value
  | none => throw (.indexOutOfRange position rule.decision.card)

/-- The best choice given named inputs; other entries do not matter. -/
def chooseFor (rule : DecisionRule α) (inputs : Assignment) : Except ModelError Value := do
  let slots ← Scope.slotsOf rule.inputs inputs
  Evaluate.answerFrom slots do rule.valueAt (← rule.choose)

/-- The whole rule: every assignment of its inputs with the choice. -/
def rows (rule : DecisionRule α) : Except ModelError (List (Assignment × Value)) :=
  Evaluate.answerFrom Slots.empty do
    match rule.factor with
    | none => return [(NameMap.empty, ← rule.valueAt 0)]
    | some f =>
      (List.range f.scope.size).mapM fun index => do
        Factor.fill f.scope index
        let value ← rule.valueAt (← rule.choose)
        match f.scope.assignmentAt index with
        | .ok inputs => return (inputs, value)
        | .error e => throw e

end DecisionRule

namespace Solution

variable {α : Type} [Scalar α]

/-- The rule for a named decision. -/
def rule? (solution : Solution α) (name : String) : Option (DecisionRule α) :=
  solution.rules.find? (·.decision.name == name)

/-- Takes the decisions in turn; each choice is there for later rules to read. -/
def choices : List (DecisionRule α) → Evaluate α (List (VarId × Nat))
  | [] => return []
  | rule :: rest => do
    let position ← rule.choose
    Evaluate.assign rule.decision.id position
    return (rule.decision.id, position) :: (← choices rest)

/-- The positions that the rules choose, one after the other, from some positions on. -/
def act (solution : Solution α) (slots : Slots) : Except ModelError (List (VarId × Nat)) :=
  Evaluate.answerFrom slots (choices solution.rules)

end Solution

/-- The factors and the decision rules in the course of an elimination. -/
structure Elimination (α : Type) where
  factors : List (Factor α)
  rules : List (DecisionRule α)

namespace Diagram

variable {α : Type} [Scalar α]

open Infer

/-! ## Legal orders -/

/-- Refuses ids that the diagram does not have, and repeated ones. -/
def checkEntries (d : Diagram α) (seen : List VarId) : List VarId → Except InferenceError Unit
  | [] => .ok ()
  | id :: rest =>
    match d.byId? id with
    | none => .error (.illegalOrder id.render .unknownVariable)
    | some v =>
      if id ∈ seen then .error (.illegalOrder v.name .repeated)
      else checkEntries d (id :: seen) rest

/-- Whether a variable takes part in an elimination under evidence: a decision or a requisite
chance variable that is not observed. -/
def takesPart (requisite : Array Bool) (evidence : Slots) (v : Variable) : Bool :=
  !evidence.isAssigned v.id && (v.isDecision || requisite.getD v.id.index false)

/-- The parents of a decision that take part and come before it in an order. -/
def eliminatedBefore (d : Diagram α) (order : List VarId) (requisite : Array Bool)
    (evidence : Slots) (decision : Variable) : List Variable :=
  match order.findIdx? (· == decision.id) with
  | none => []
  | some place =>
    (d.pick decision.parents).filter fun parent =>
      takesPart requisite evidence parent && (order.findIdx? (· == parent.id)).any (· < place)

/-- Refuses orders with unknown or repeated entries, without a variable that takes part, or with an
observed variable before the decision that observes it. -/
def checkOrder (d : Diagram α) (order : List VarId) (requisite : Array Bool) (evidence : Slots) :
    Except InferenceError Unit := do
  d.checkEntries [] order
  match d.vars.find? fun v => takesPart requisite evidence v && !order.contains v.id with
  | some v => throw (.illegalOrder v.name .missing)
  | none =>
    match (d.vars.filter (·.isDecision)).findSome? fun decision =>
        (d.eliminatedBefore order requisite evidence decision).head?.map (decision, ·) with
    | some (decision, parent) =>
      throw (.illegalOrder decision.name (.observedFirst parent.name))
    | none => return ()

/-! ## Elimination -/

/-- Maximises a decision out and keeps its rule. -/
def maximise (state : Elimination α) (v : Variable) : Infer (Elimination α) := do
  let (mentioning, rest) := state.factors.partition (·.mentions v.id)
  match mentioning with
  | [] => return ⟨rest, state.rules ++ [⟨v, none⟩]⟩
  | [base] =>
    match base.scope.vars.find? fun u => u.id != v.id && !v.parents.contains u.id with
    | some u => throw (.illegalOrder v.name (.outside base.label u.name))
    | none =>
      let best ← ofModel (Factor.maxOut (← nextNumber) v base)
      return ⟨rest ++ [best], state.rules ++ [⟨v, some best⟩]⟩
  | _ => throw (.illegalOrder v.name (.mentionedBy mentioning.length))

/-- Eliminates one variable of an order; those that do not take part are skipped. -/
def eliminateNext (d : Diagram α) (requisite : Array Bool) (evidence : Slots)
    (state : Elimination α) (id : VarId) : Infer (Elimination α) :=
  match d.byId? id with
  | none => return state
  | some v =>
    if !takesPart requisite evidence v then return state
    else if v.isDecision then maximise state v
    else return { state with factors := ← eliminate state.factors v }

/-- Refuses factors that still depend on variables, and a utility in none or several of them. -/
def checkResidue (factors : List (Factor α)) : Except InferenceError Unit :=
  match factors.find? fun f => !f.scope.vars.isEmpty with
  | some f => .error (.illegalOrder "end of order" (.freeVariables f.label))
  | none =>
    let carriers := (factors.filter (·.carriesUtility)).length
    if carriers ≠ 1 then .error (.illegalOrder "end of order" (.utilityCarriers carriers))
    else .ok ()

/-- The expected utility that is left after an elimination under evidence. -/
def expectation (d : Diagram α) (factors : List (Factor α)) (evidence : Slots) : Infer α := do
  let joint ← ofModel (Evaluate.answerFrom Slots.empty (productOf factors))
  if evidence.assigned.isEmpty then return joint
  let p ← d.evidenceProbability evidence
  if p ≤ 0 || !Scalar.isFinite p then throw .zeroEvidence
  return joint / p

/-- Solves a diagram along an order, given some observations. Each decision and each requisite
chance variable that is not observed must be in the order once. -/
def optimize (d : Diagram α) (order : EliminationOrder) (observations : Assignment) :
    Infer (Solution α) := do
  let evidence ← ofModel (d.slotsOf observations)
  let requisite := d.requisiteChance evidence
  liftExcept (d.checkOrder order.ids requisite evidence)
  let factors ← project (d.markedFactors requisite ++ [d.utility]) evidence
  let state ← order.ids.foldlM (d.eliminateNext requisite evidence) ⟨factors, []⟩
  liftExcept (checkResidue state.factors)
  let expectedUtility ← d.expectation state.factors evidence
  return ⟨expectedUtility,
    d.decisionOrder.filterMap fun id => state.rules.find? (·.decision.id == id)⟩

/-- Solves a diagram along the order made for the observations. -/
def solve (d : Diagram α) (observations : Assignment) : Infer (Solution α) := do
  let evidence ← ofModel (d.slotsOf observations)
  d.optimize (.forEvidence d evidence) observations

end Diagram

end Counsel
