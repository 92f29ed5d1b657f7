/-
Posterior distributions by variable elimination. A query fills the evidence into the tables that
matter, sums out the hidden variables one after the other, and normalises the product of what is
left. A table matters if its child is asked for, observed, or an ancestor of such a variable; the
other tables would sum to one.
-/
import Counsel.Diagram.Memo
import Counsel.Inference.Error
import Counsel.Inference.Order
import Counsel.Scalar.Weights

namespace Counsel

/-- A step of inference; the state is the count of factor numbers given out, which failing steps
keep as well. -/
abbrev Infer (β : Type) := ExceptT InferenceError (StateM Nat) β

namespace Infer

variable {β : Type}

/-- Takes the next factor number. -/
def nextNumber : Infer Nat := modifyGet fun n => (n, n + 1)

def ofModel (result : Except ModelError β) : Infer β :=
  match result with
  | .ok x => return x
  | .error e => throw (.model e)

end Infer

/-- The distribution of a variable, in the order of its domain. -/
structure Marginal (α : Type) where
  name : String
  distribution : List (Value × α)

namespace Marginal

variable {α : Type} [Scalar α]

/-- The probability of a value; values outside the domain have none. -/
def probability (m : Marginal α) (value : Value) : α :=
  ((m.distribution.find? (·.1 == value)).map (·.2)).getD 0

/-- The first most probable value. -/
def mode (m : Marginal α) : Option Value :=
  (Scalar.argmaxFirst (m.distribution.map (·.2))).bind fun i => m.distribution[i]?.map (·.1)

end Marginal

namespace Diagram

variable {α : Type} [Scalar α]

open Infer

/-- Fills evidence into a factor; one that mentions no observed variable stays as it is. -/
def projectOne (evidence : Slots) (f : Factor α) : Infer (Factor α) :=
  if f.scope.ids.any evidence.isAssigned then do
    ofModel (Factor.observe (← nextNumber) f evidence)
  else return f

/-- Fills evidence into some factors. -/
def project (factors : List (Factor α)) (evidence : Slots) : Infer (List (Factor α)) :=
  factors.mapM (projectOne evidence)

/-- Puts one sum in place of the factors that mention a variable; it comes last. -/
def eliminate (factors : List (Factor α)) (v : Variable) : Infer (List (Factor α)) := do
  let (mentioning, rest) := factors.partition (·.mentions v.id)
  if mentioning.isEmpty then return rest
  let sum ← ofModel (Factor.sumOut (← nextNumber) v mentioning)
  return rest ++ [sum]

/-- The conditional tables whose child is marked. -/
def markedFactors (d : Diagram α) (marks : Array Bool) : List (Factor α) :=
  d.probabilityFactors.filter fun f => f.child?.any fun child => marks.getD child.index false

/-- The hidden variables of an order: those that are marked chance variables, not observed and not
asked for. -/
def hidden (d : Diagram α) (marks : Array Bool) (evidence : Slots) (target : Option VarId)
    (ids : List VarId) : List Variable :=
  (ids.filter fun id => some id != target && !evidence.isAssigned id).filterMap fun id =>
    (d.byId? id).filter fun v => marks.getD id.index false && !v.isDecision

/-- The product of the values of some factors under some positions. -/
def productOf (factors : List (Factor α)) : Evaluate α α :=
  factors.foldlM (fun acc f => return acc * (← f.memoValue)) 1

/-- The product of factors for each position of a variable. -/
def weights (factors : List (Factor α)) (v : Variable) : Evaluate α (List α) :=
  (List.range v.card).mapM fun position => do
    Evaluate.assign v.id position
    productOf factors

/-- The distribution of a variable given some observations. -/
def query (d : Diagram α) (name : String) (observations : Assignment)
    (order : Option EliminationOrder) : Infer (Marginal α) := do
  let target ← ofModel (d.lookup name)
  if target.isDecision then throw (.notChance name)
  let evidence ← ofModel (d.slotsOf observations)
  match evidence.get? target.id with
  | some position =>
    return ⟨name, target.domain.zipIdx.map fun (v, i) => (v, if i = position then 1 else 0)⟩
  | none =>
    let marks := d.ancestors (target.id :: evidence.assigned.map (·.1))
    let factors ← project (d.markedFactors marks) evidence
    let order := order.getD (.reverseTopological d)
    let factors ← (d.hidden marks evidence (some target.id) order.ids).foldlM eliminate factors
    match (factors.flatMap (·.scope.vars)).find? (·.id != target.id) with
    | some v => throw (.incompleteOrder v.name)
    | none =>
      let weights ← ofModel (Evaluate.answerFrom Slots.empty (weights factors target))
      match Scalar.normalize weights with
      | none => throw .zeroEvidence
      | some probabilities => return ⟨name, target.domain.zip probabilities⟩

/-- The joint probability of the observed chance variables; observed decisions do not matter. -/
def evidenceProbability (d : Diagram α) (evidence : Slots) : Infer α := do
  let observed := (evidence.assigned.map (·.1)).filter fun id => (d.cpt? id).isSome
  if observed.isEmpty then return 1
  let marks := d.ancestors observed
  let factors ← project (d.markedFactors marks) evidence
  let factors ← (d.hidden marks evidence none d.chanceOrder.reverse).foldlM eliminate factors
  ofModel (Evaluate.answerFrom Slots.empty (productOf factors))

end Diagram

end Counsel
