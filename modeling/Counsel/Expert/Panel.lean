/-
Panels of experts, which deliberate after each trial one after the other.
-/
import Counsel.Expert.Basic
import Counsel.Text.Escaped

namespace Counsel

/-- Experts under a name. -/
structure Panel (α γ : Type) where
  name : String
  experts : List (Expert α γ)

namespace Panel

variable {α γ : Type} [Scalar α] [RandomSource γ]

def ids (panel : Panel α γ) : List ExpertId := panel.experts.map Expert.id

/-- A panel in words. -/
def describe (panel : Panel α γ) : String :=
  let experts := panel.ids.map fun id => "ExpertId(" ++ Text.describe id ++ ")"
  "Panel \x7b name: " ++ Text.describe panel.name ++ ", experts: [" ++
    String.intercalate ", " experts ++ "] \x7d"

/-- One seed for each of some experts, drawn one after the other. -/
def seeds (source : γ) : Nat → List UInt64
  | 0 => []
  | count + 1 =>
    let (seed, source) := RandomSource.word source
    seed :: seeds source count

/-- A panel, unless two experts have the same name. -/
def distinct (name : String) (seen : List ExpertId) (rest : List (Expert α γ))
    (experts : List (Expert α γ)) : Except Error (Panel α γ) :=
  match rest with
  | [] => .ok ⟨name, experts⟩
  | expert :: rest =>
    if expert.id ∈ seen then .error (.config (.settings (.twinExperts name expert.id)))
    else distinct name (expert.id :: seen) rest experts

/-- A panel of unreliable experts, whose seeds are drawn from a source with the given seed. -/
def ofConfig (config : PanelConfig α) (seed : UInt64) : Except Error (Panel α γ) :=
  match Check.panel config with
  | .error e => .error (.config e)
  | .ok () => do
    let source : γ := RandomSource.ofSeed seed
    let experts ← (config.experts.zip (seeds source config.experts.length)).mapM fun (c, s) =>
      return Expert.unreliable (← UnreliableExpert.ofConfig c s)
    return ⟨config.name, experts⟩

/-- Numbers as a list, as experts are named by their reliabilities. -/
def listText (xs : List α) : String :=
  "[" ++ String.intercalate ", " (xs.map (Scalar.write .pointed)) ++ "]"

/-- A panel of experts with a list of reliabilities each, who share a map of regions and are named
by their lists. -/
def ofRegions (name : String) (reliabilities : List (List α)) (regions : StateTable Nat)
    (disclosure : DisclosureConfig α) (states : Layout) (seed : UInt64) :
    Except Error (Panel α γ) := do
  let source : γ := RandomSource.ofSeed seed
  let experts ← (reliabilities.zip (seeds source reliabilities.length)).mapM fun (rhos, s) =>
    return Expert.regional
      (← RegionalExpert.ofRegions (listText rhos) rhos regions states disclosure s)
  distinct name [] experts experts

/-- The name of an expert that does not see some variables. -/
def sightName (hidden : List String) : String :=
  if hidden.isEmpty then "sees all" else "blind to " ++ String.intercalate "," hidden

/-- A panel of experts each of which does not see the variables of a list. -/
def ofHidden (name : String) (hidden : List (List String)) (disclosure : DisclosureConfig α)
    (states actions : Layout) : Except Error (Panel α γ) := do
  let experts ← hidden.mapM fun names =>
    return Expert.sighted
      (← SightedExpert.ofHidden (sightName names) names states actions disclosure)
  distinct name [] experts experts

/-- Lets some experts deliberate in turn: what each said, and the experts afterwards. -/
def deliberateAll (state action : Assignment) :
    List (Expert α γ) → Oracle α →
      Except Error (List (ExpertId × Option Assignment)) × List (Expert α γ) × Oracle α
  | [], oracle => (.ok [], [], oracle)
  | expert :: rest, oracle =>
    let (said, expert, oracle) := (Expert.deliberate state action).answer (expert, oracle)
    match said with
    | .error e => (.error e, expert :: rest, oracle)
    | .ok advice =>
      let (more, rest, oracle) := deliberateAll state action rest oracle
      (more.map ((expert.id, advice) :: ·), expert :: rest, oracle)

/-- What the experts of a panel say after a trial. -/
def advise (state action : Assignment) : Step (Panel α γ × Oracle α) AdviceBundle :=
  fun (panel, oracle) =>
    let (said, experts, oracle) := deliberateAll state action panel.experts oracle
    (said.map .ofList, { panel with experts }, oracle)

def reset (panel : Panel α γ) : Panel α γ := { panel with experts := panel.experts.map .reset }

end Panel

end Counsel
