/-
The settings of agents, experts and experiments, with their defaults.
-/
import Counsel.Scalar

namespace Counsel

variable {α : Type} [Scalar α]

/-- A level that moves evenly from `start` to `finish` over a fraction of the trials. -/
structure Schedule (α : Type) where
  start : α
  finish : α
  decayFraction : α

namespace Schedule

def level (s : Schedule α) (planned done : Nat) : α :=
  let horizon := s.decayFraction * Scalar.ofNat planned
  let progress := if 0 < horizon then Scalar.atMost 1 (Scalar.ofNat done / horizon) else 1
  s.start + progress * (s.finish - s.start)

/-- How likely a trial explores: always at first, never in the end. -/
def exploration : Schedule α := ⟨1, 0, 0.8⟩

/-- What the greedy action must be worth to be taken: more at first than in the end. -/
def aspiration : Schedule α := ⟨1, 0 - 1, 0.8⟩

end Schedule

/-- How advice is combined. -/
inductive TrustMode where
  /-- A posterior over all joint actions from all advice. -/
  | bayesian
  /-- The advice of the most reliable expert. -/
  | naive
  deriving DecidableEq

def TrustMode.render : TrustMode → String
  | .bayesian => "bayesian"
  | .naive => "naive"

/-- What is counted for an expert before its first advice. -/
structure PriorCounts (α : Type) where
  optimal : α
  suboptimal : α

/-- The settings of an agent that weighs advice. -/
structure TrustConfig (α : Type) where
  prior : PriorCounts α
  exploration : Schedule α
  /-- The least posterior probability that an advised action must have. -/
  threshold : Option α
  mode : TrustMode
  /-- Whether remembered advice is judged again in every trial. -/
  regularUpdate : Bool
  /-- How many of the latest outcomes count. -/
  slidingWindow : Option Nat
  /-- The weight of the latest outcome in a moving average. -/
  recency : Option α
  seed : UInt64

namespace TrustConfig

def standard : TrustConfig α where
  prior := ⟨1, 1⟩
  exploration := .exploration
  threshold := none
  mode := .bayesian
  regularUpdate := true
  slidingWindow := none
  recency := none
  seed := 0

/-- Two over the number of actions, but not more than one half. -/
def standardThreshold (actions : Nat) : α :=
  if actions = 0 then 0.5 else Scalar.atMost 0.5 (Scalar.ofNat 2 / Scalar.ofNat actions)

/-- The threshold that applies to so many actions. -/
def thresholdFor (config : TrustConfig α) (actions : Nat) : α :=
  config.threshold.getD (standardThreshold actions)

end TrustConfig

/-- The settings of a value learner. -/
structure LearnerConfig (α : Type) where
  /-- What an action is worth before it is tried. -/
  initialValue : α
  /-- A fixed step; without it estimates are averages. -/
  learningRate : Option α
  aspiration : Schedule α

def LearnerConfig.standard : LearnerConfig α := ⟨0, none, .aspiration⟩

/-- When an expert may speak: at most once in `interval` trials, and if the average regret since
its last advice is at least `tolerance`. -/
structure DisclosureConfig (α : Type) where
  interval : Nat
  tolerance : α

namespace DisclosureConfig

def standard : DisclosureConfig α := ⟨10, 0.01⟩

def always : DisclosureConfig α := ⟨1, 0⟩

end DisclosureConfig

/-- The settings of an expert. -/
structure ExpertConfig (α : Type) where
  name : Option String
  /-- The probability of optimal advice. -/
  reliability : α
  disclosure : DisclosureConfig α
  /-- What the reliability is multiplied by after each trial. -/
  degradeFactor : Option α

namespace ExpertConfig

/-- An expert of a reliability, with the standard disclosure. -/
def ofReliability (reliability : α) : ExpertConfig α := ⟨none, reliability, .standard, none⟩

/-- The name of an expert, which is its reliability if it has no other. -/
def displayName (config : ExpertConfig α) : String :=
  config.name.getD (Scalar.write .plain config.reliability)

end ExpertConfig

/-- The settings of a panel. -/
structure PanelConfig (α : Type) where
  name : String
  experts : List (ExpertConfig α)

/-- A panel of experts with these reliabilities. -/
def PanelConfig.ofReliabilities (name : String) (reliabilities : List α) : PanelConfig α :=
  ⟨name, reliabilities.map .ofReliability⟩

/-- The version of the form that experiments are written in. -/
def schemaVersion : String := "1.0.0"

/-- The settings of a batch of runs against some panels. -/
structure ExperimentConfig (α : Type) where
  schemaVersion : String
  trials : Nat
  runs : Nat
  seed : UInt64
  trust : TrustConfig α
  learner : LearnerConfig α
  panels : List (PanelConfig α)
  /-- Whether the learner also runs without experts. -/
  includeBaseline : Bool

namespace ExperimentConfig

def standard : ExperimentConfig α :=
  ⟨Counsel.schemaVersion, 1000, 1, 0, .standard, .standard, [], false⟩

/-- The seed of a run against a panel, as a 64-bit word. -/
def runSeed (config : ExperimentConfig α) (panel run : Nat) : UInt64 :=
  config.seed + UInt64.ofNat panel * 1000003 + UInt64.ofNat run

end ExperimentConfig

end Counsel
