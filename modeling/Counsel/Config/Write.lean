/-
Settings as JSON, with every default filled in.
-/
import Counsel.Config.Settings
import Counsel.Json.Text

namespace Counsel

open JsonText

def Schedule.toJsonText (s : Schedule Float) : String :=
  object [("start", float s.start), ("end", float s.finish),
    ("decay_fraction", float s.decayFraction)]

def DisclosureConfig.toJsonText (c : DisclosureConfig Float) : String :=
  object [("interval", nat c.interval), ("tolerance", float c.tolerance)]

/-- The settings of an expert, with the name that it goes by. -/
def ExpertConfig.toJsonText (c : ExpertConfig Float) : String :=
  object [("name", orNull text c.name), ("display_name", text c.displayName),
    ("reliability", float c.reliability), ("disclosure", c.disclosure.toJsonText),
    ("degrade_factor", orNull float c.degradeFactor)]

def PanelConfig.toJsonText (c : PanelConfig Float) : String :=
  object [("name", text c.name), ("experts", listOf (·.toJsonText) c.experts)]

def TrustConfig.toJsonText (c : TrustConfig Float) : String :=
  object [("prior", pair (float c.prior.optimal) (float c.prior.suboptimal)),
    ("exploration", c.exploration.toJsonText), ("threshold", orNull float c.threshold),
    ("mode", text c.mode.render), ("regular_update", bool c.regularUpdate),
    ("sliding_window", orNull nat c.slidingWindow), ("recency", orNull float c.recency),
    ("seed", word c.seed)]

def LearnerConfig.toJsonText (c : LearnerConfig Float) : String :=
  object [("initial_value", float c.initialValue), ("learning_rate", orNull float c.learningRate),
    ("aspiration", c.aspiration.toJsonText)]

def ExperimentConfig.toJsonText (c : ExperimentConfig Float) : String :=
  object [("schema_version", text c.schemaVersion), ("trials", nat c.trials), ("runs", nat c.runs),
    ("seed", word c.seed), ("trust", c.trust.toJsonText), ("learner", c.learner.toJsonText),
    ("panels", listOf (·.toJsonText) c.panels), ("include_baseline", bool c.includeBaseline)]

end Counsel
