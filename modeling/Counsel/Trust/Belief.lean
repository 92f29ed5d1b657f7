/-
What is believed about the reliability of an expert: counts of optimal and of other advice, read as
a beta distribution. The counts may cover only the latest outcomes, and the estimate may be a
moving average instead of their ratio.
-/
import Counsel.Agent.Basic
import Counsel.Beta.Quantile
import Counsel.Config.Settings
import Counsel.Scalar.Weights

namespace Counsel

/-- The counts in effect, with what the variants need besides. -/
structure Belief (α : Type) where
  prior : PriorCounts α
  optimal : α
  suboptimal : α
  /-- How many outcomes count, and those that do, oldest first. -/
  window : Option (Nat × List Bool)
  recency : Option α
  /-- The moving average. -/
  recent : α
  evaluations : Nat

namespace Belief

variable {α : Type} [Scalar α]

/-- The estimate of a prior. -/
def priorMean (prior : PriorCounts α) : α := Scalar.share prior.optimal prior.suboptimal 0.5

/-- A belief before the first outcome. -/
def start (prior : PriorCounts α) (slidingWindow : Option Nat) (recency : Option α) : Belief α :=
  ⟨prior, prior.optimal, prior.suboptimal, slidingWindow.map (·, []), recency, priorMean prior, 0⟩

def ofConfig (config : TrustConfig α) : Belief α :=
  start config.prior config.slidingWindow config.recency

/-- A full window of outcomes makes room for one more. -/
def slide (size : Nat) (outcomes : List Bool) (outcome : Bool) : List Bool :=
  (if outcomes.length = size then outcomes.tail else outcomes) ++ [outcome]

/-- The counts after one more outcome. -/
def count (belief : Belief α) (outcome : Bool) : Belief α :=
  match belief.window with
  | some (size, outcomes) =>
    let outcomes := slide size outcomes outcome
    let hits := outcomes.count true
    { belief with
      window := some (size, outcomes)
      optimal := Scalar.ofNat hits
      suboptimal := Scalar.ofNat (outcomes.length - hits) }
  | none =>
    if outcome then { belief with optimal := belief.optimal + 1 }
    else { belief with suboptimal := belief.suboptimal + 1 }

/-- The moving average after one more outcome. -/
def average (belief : Belief α) (outcome : Bool) : Belief α :=
  match belief.recency with
  | some weight =>
    { belief with recent := Scalar.blend belief.recent (if outcome then 1 else 0) weight }
  | none => belief

/-- The belief after a piece of advice was judged. -/
def record (belief : Belief α) (outcome : Bool) : Belief α :=
  let belief := (belief.count outcome).average outcome
  { belief with evaluations := belief.evaluations + 1 }

/-- The reliability estimate. -/
def rho (belief : Belief α) : α :=
  match belief.recency with
  | some _ => Scalar.larger belief.recent 0
  | none => Scalar.share belief.optimal belief.suboptimal (priorMean belief.prior)

/-- The range that the reliability lies in with the probability `level`, if the counts give one. -/
def interval [Beta.Ranking α] (belief : Belief α) (level : α) : Option (α × α) :=
  Beta.credibleInterval belief.optimal belief.suboptimal level

def summary [Beta.Ranking α] (belief : Belief α) (level : α) : ReliabilitySummary α :=
  ⟨belief.rho, belief.evaluations, belief.interval level⟩

def reset (belief : Belief α) : Belief α :=
  start belief.prior (belief.window.map (·.1)) belief.recency

end Belief

end Counsel
