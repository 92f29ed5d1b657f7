/-
What can be wrong with a query or with an attempt to solve a diagram.
-/
import Counsel.Diagram.Error

namespace Counsel

/-- Why an elimination order is illegal for a diagram. -/
inductive OrderFault where
  | unknownVariable
  | repeated
  | missing
  /-- A variable that the decision observes comes before the decision. -/
  | observedFirst (name : String)
  /-- The decision would depend on a variable that it does not observe. -/
  | outside (factor : FactorLabel) (name : String)
  | mentionedBy (count : Nat)
  | freeVariables (factor : FactorLabel)
  | utilityCarriers (count : Nat)
  deriving DecidableEq

namespace OrderFault

def message : OrderFault → String
  | .unknownVariable => "unknown variable"
  | .repeated => "listed more than once"
  | .missing => "missing from the elimination order"
  | .observedFirst name => "observed variable " ++ name ++ " is eliminated first"
  | .outside factor name =>
    factor.render ++ " depends on " ++ name ++ ", which is outside the information set"
  | .mentionedBy count => toString count ++ " factors mention it"
  | .freeVariables factor => factor.render ++ " still has free variables"
  | .utilityCarriers count =>
    toString count ++ " residual factors carry utility, expected 1"

end OrderFault

/-- Why a query or a solution is refused. -/
inductive InferenceError where
  | model (error : ModelError)
  | notChance (name : String)
  | zeroEvidence
  | incompleteOrder (remaining : String)
  /-- A fault of the order at a variable, or at its end. -/
  | illegalOrder (place : String) (fault : OrderFault)
  deriving DecidableEq

namespace InferenceError

def message : InferenceError → String
  | .model error => error.message
  | .notChance name => name ++ " is not a chance variable"
  | .zeroEvidence => "observations have zero probability"
  | .incompleteOrder remaining => "elimination order left " ++ remaining ++ " uneliminated"
  | .illegalOrder place fault =>
    "illegal elimination order at " ++ place ++ ": " ++ fault.message

end InferenceError

end Counsel
