/-
Which settings are accepted. Each check reports the first fault, with the field that it is in.
-/
import Counsel.Config.Settings
import Counsel.Text.Blank

namespace Counsel

/-- What is wrong with the value of a field. Numbers are given as they are written in messages. -/
inductive ValueFault where
  | notInUnit (got : String)
  | notInHalfOpenUnit (got : String)
  | negative (got : String)
  | notPositive (got : String)
  | notFinite (got : String)
  | boundsNotFinite (start finish : String)
  | zero
  | noReliabilities
  | regionOutOfRange (region count : Nat)
  | unknownVariable (name : String)
  deriving DecidableEq

def ValueFault.message : ValueFault → String
  | .notInUnit got => "Must be in [0, 1], got " ++ got
  | .notInHalfOpenUnit got => "Must be in (0, 1], got " ++ got
  | .negative got => "Must be non-negative, got " ++ got
  | .notPositive got => "Must be positive, got " ++ got
  | .notFinite got => "Must be finite, got " ++ got
  | .boundsNotFinite start finish =>
    "Bounds must be finite, got start=" ++ start ++ " end=" ++ finish
  | .zero => "Must be at least 1"
  | .noReliabilities => "Must list at least one reliability"
  | .regionOutOfRange region count =>
    "Region " ++ toString region ++ " out of range for " ++ toString count ++ " reliabilities"
  | .unknownVariable name => "Unknown variable '" ++ name ++ "'"

/-- What is wrong with settings taken together. -/
inductive SettingsFault where
  | emptyPrior
  | blankPanelName
  | duplicateExpert (expert panel : String)
  | duplicatePanel (panel : String)
  | twinExperts (panel expert : String)
  deriving DecidableEq

def SettingsFault.message : SettingsFault → String
  | .emptyPrior => "trust.prior counts must not both be zero"
  | .blankPanelName => "panel name must not be empty"
  | .duplicateExpert expert panel =>
    "duplicate expert name '" ++ expert ++ "' in panel '" ++ panel ++ "'"
  | .duplicatePanel panel => "duplicate panel name '" ++ panel ++ "'"
  | .twinExperts panel expert =>
    "panel '" ++ panel ++ "' has two experts named '" ++ expert ++ "'"

/-- Why settings are refused. -/
inductive ConfigError where
  | unreadable
  | malformed
  | settings (fault : SettingsFault)
  | invalidValue (field : String) (fault : ValueFault)
  | versionMismatch (expected actual : String)
  deriving DecidableEq

namespace ConfigError

def message : ConfigError → String
  | .unreadable => "I/O error: Failed to read"
  | .malformed => "Parse error: Invalid JSON"
  | .settings fault => "Semantic validation failed: " ++ fault.message
  | .invalidValue field fault => "Invalid value for " ++ field ++ ": " ++ fault.message
  | .versionMismatch expected actual =>
    "Version mismatch: expected " ++ expected ++ ", got " ++ actual

/-- The number of an error in reports. -/
def code : ConfigError → Nat
  | .unreadable => 60
  | .malformed => 61
  | .settings _ => 10
  | .invalidValue .. => 11
  | .versionMismatch .. => 12

end ConfigError

/-- Passes, or names the fault. -/
abbrev Check := Except ConfigError Unit

namespace Check

variable {α : Type} [Scalar α]

/-- Refuses the value of a field unless a condition holds. -/
def demand (ok : Bool) (field : String) (fault : ValueFault) : Check :=
  if ok then .ok () else .error (.invalidValue field fault)

/-- A number as it is written in messages. -/
def got (x : α) : String := Scalar.write .plain x

def unit (field : String) (x : α) : Check :=
  demand (decide (0 ≤ x) && decide (x ≤ 1)) field (.notInUnit (got x))

/-- A number from zero to one, but not zero. -/
def halfOpenUnit (field : String) (x : α) : Check :=
  demand (decide (0 < x) && decide (x ≤ 1)) field (.notInHalfOpenUnit (got x))

/-- A number that is not negative. -/
def nonNegative (field : String) (x : α) : Check :=
  demand (decide (0 ≤ x)) field (.negative (got x))

/-- A positive, finite number. -/
def positive (field : String) (x : α) : Check :=
  demand (decide (0 < x) && Scalar.isFinite x) field (.notPositive (got x))

/-- A number of trials. -/
def trials (count : Nat) : Check := demand (count != 0) "trials" .zero

/-- The reliabilities of the regions, at least one. -/
def reliabilities (field : String) (xs : List α) : Check :=
  if xs.isEmpty then .error (.invalidValue field .noReliabilities)
  else xs.zipIdx.forM fun (x, i) => unit (field ++ "[" ++ toString i ++ "]") x

/-- Regions that each have a reliability. -/
def regions (field : String) (xs : List Nat) (count : Nat) : Check :=
  xs.zipIdx.forM fun (region, i) =>
    demand (decide (region < count)) (field ++ "[" ++ toString i ++ "]")
      (.regionOutOfRange region count)

/-- Names that are all known. -/
def knownNames (field : String) (names known : List String) : Check :=
  names.forM fun name => demand (known.contains name) field (.unknownVariable name)

/-- The settings of an agent that weighs advice. -/
def trust (config : TrustConfig α) : Check := do
  nonNegative "trust.prior.optimal" config.prior.optimal
  nonNegative "trust.prior.suboptimal" config.prior.suboptimal
  if config.prior.optimal + config.prior.suboptimal ≤ 0 then throw (.settings .emptyPrior)
  unit "trust.exploration.start" config.exploration.start
  unit "trust.exploration.end" config.exploration.finish
  positive "trust.exploration.decay_fraction" config.exploration.decayFraction
  config.threshold.forM (unit "trust.threshold")
  config.slidingWindow.forM fun size => demand (size != 0) "trust.sliding_window" .zero
  config.recency.forM (halfOpenUnit "trust.recency")

/-- The settings of a learner. -/
def learner (config : LearnerConfig α) : Check := do
  demand (Scalar.isFinite config.initialValue) "learner.initial_value"
    (.notFinite (got config.initialValue))
  config.learningRate.forM (halfOpenUnit "learner.learning_rate")
  let aspiration := config.aspiration
  demand (Scalar.isFinite aspiration.start && Scalar.isFinite aspiration.finish)
    "learner.aspiration" (.boundsNotFinite (got aspiration.start) (got aspiration.finish))
  positive "learner.aspiration.decay_fraction" aspiration.decayFraction

/-- When an expert may speak. -/
def disclosure (field : String) (config : DisclosureConfig α) : Check := do
  demand (config.interval != 0) (field ++ ".interval") .zero
  nonNegative (field ++ ".tolerance") config.tolerance

/-- The settings of an expert. -/
def expert (field : String) (config : ExpertConfig α) : Check := do
  unit (field ++ ".reliability") config.reliability
  disclosure (field ++ ".disclosure") config.disclosure
  config.degradeFactor.forM (halfOpenUnit (field ++ ".degrade_factor"))

/-- The experts of a panel from number `i` on; no two have the same name. -/
def experts (panel : String) (seen : List String) (i : Nat) : List (ExpertConfig α) → Check
  | [] => .ok ()
  | config :: rest => do
    expert ("panels." ++ panel ++ ".experts[" ++ toString i ++ "]") config
    if config.displayName ∈ seen then
      throw (.settings (.duplicateExpert config.displayName panel))
    experts panel (config.displayName :: seen) (i + 1) rest

/-- The settings of a panel, which has a name that is not blank. -/
def panel (config : PanelConfig α) : Check := do
  if (Text.trim config.name).isEmpty then throw (.settings .blankPanelName)
  experts config.name [] 0 config.experts

/-- The panels of an experiment; no two have the same name. -/
def panels (seen : List String) : List (PanelConfig α) → Check
  | [] => .ok ()
  | config :: rest => do
    panel config
    if config.name ∈ seen then throw (.settings (.duplicatePanel config.name))
    panels (config.name :: seen) rest

/-- The settings of an experiment. -/
def experiment (config : ExperimentConfig α) : Check := do
  if config.schemaVersion ≠ schemaVersion then
    throw (.versionMismatch schemaVersion config.schemaVersion)
  trials config.trials
  demand (config.runs != 0) "runs" .zero
  trust config.trust
  learner config.learner
  panels [] config.panels

end Check

end Counsel
