/-
What agents have in common: they act in a state, learn from a finished trial and from the advice
given after it, and forget everything when they are reset.
-/
import Counsel.Error

namespace Counsel

/-- The name of an expert in its panel. -/
abbrev ExpertId := String

/-- A finished trial. -/
structure Trial (α : Type) where
  state : Assignment
  action : Assignment
  reward : α

/-- What each expert said after a trial; nothing stands for silence. -/
abbrev AdviceBundle := NameMap (Option Assignment)

namespace AdviceBundle

/-- The advice of an expert, if it gave some. -/
def advice? (bundle : AdviceBundle) (expert : ExpertId) : Option Assignment :=
  (bundle.get? expert).join

/-- The experts that gave advice, with their advice. -/
def given (bundle : AdviceBundle) : List (ExpertId × Assignment) :=
  bundle.entries.filterMap fun (id, advice) => advice.map (id, ·)

def isSilent (bundle : AdviceBundle) : Bool := (given bundle).isEmpty

end AdviceBundle

/-- What is believed about an expert, in brief: its reliability, how often its advice was judged,
and the range that the reliability probably lies in. -/
structure ReliabilitySummary (α : Type) where
  rho : α
  evaluations : Nat
  interval : Option (α × α)

/-- A kind of agent with states `κ`. -/
class Agent (κ : Type) (α : outParam Type) where
  name : κ → String
  /-- Chooses a joint action; an agent that does not explore follows only what it has learned. -/
  act : Assignment → Bool → Step κ Assignment
  learn : Trial α → AdviceBundle → Step κ Unit
  /-- Forgets everything and gets ready for some experts. -/
  reset : List ExpertId → κ → κ
  takesAdvice : κ → Bool
  /-- What each expert was thought of at each action. -/
  history : κ → Option (NameMap (Array α))
  /-- What each expert is thought of now. -/
  report : κ → Option (NameMap (ReliabilitySummary α))

end Counsel
