/-
Reading settings from JSON. A record is an object of its fields or an array of their values in
order. Fields that may be missing have defaults; unknown fields are skipped and repeated ones are
refused.
-/
import Counsel.Config.Valid
import Counsel.Json.Decode
import Counsel.Json.Reader

namespace Counsel

namespace Fields

variable {β : Type}

/-- What each field of a record holds, in the order of the fields. -/
def decode (names : List String) : Decode (List (Option Json))
  | .array items =>
    if items.length ≤ names.length then
      .ok (items.map some ++ List.replicate (names.length - items.length) none)
    else .error .form
  | .object members =>
    if members.any (·.1.isNone) then .error .form
    else names.mapM fun name =>
      match members.filter (·.1 == some name) with
      | [] => .ok none
      | [(_, value)] => .ok (some value)
      | _ => .error .form
  | _ => .error .form

/-- The value of a field, or its default if it is missing. -/
def getOr (fallback : β) (decode : Decode β) : Option Json → Except DecodeFault β
  | none => .ok fallback
  | some json => decode json

def get (decode : Decode β) : Option Json → Except DecodeFault β
  | none => .error .form
  | some json => decode json

end Fields

open Decode Fields

/-- The way that a name stands for. -/
def TrustMode.ofName : String → Except DecodeFault TrustMode
  | "bayesian" => .ok .bayesian
  | "naive" => .ok .naive
  | _ => .error .form

/-- The way advice is combined: the name of a mode, or an object that gives it `null`. -/
def TrustMode.decode : Decode TrustMode
  | .string (some name) => ofName name
  | .object [(some name, .null)] => ofName name
  | _ => .error .form

/-- A schedule; the given one has the defaults. -/
def Schedule.decode (base : Schedule Float) : Decode (Schedule Float) := fun json => do
  match ← Fields.decode ["start", "end", "decay_fraction"] json with
  | [start, finish, decayFraction] =>
    return ⟨← getOr base.start Decode.finite start, ← getOr base.finish Decode.finite finish,
      ← getOr base.decayFraction Decode.finite decayFraction⟩
  | _ => throw .form

def PriorCounts.decode : Decode (PriorCounts Float) := fun json => do
  match ← Fields.decode ["optimal", "suboptimal"] json with
  | [optimal, suboptimal] =>
    return ⟨← getOr 1 Decode.finite optimal, ← getOr 1 Decode.finite suboptimal⟩
  | _ => throw .form

def TrustConfig.decode : Decode (TrustConfig Float) := fun json => do
  let base : TrustConfig Float := .standard
  match ← Fields.decode ["prior", "exploration", "threshold", "mode", "regular_update",
    "sliding_window", "recency", "seed"] json with
  | [prior, exploration, threshold, mode, regularUpdate, slidingWindow, recency, seed] =>
    return ⟨← getOr base.prior PriorCounts.decode prior,
      ← getOr base.exploration (Schedule.decode .exploration) exploration,
      ← getOr none (optional Decode.finite) threshold, ← getOr base.mode TrustMode.decode mode,
      ← getOr base.regularUpdate Decode.bool regularUpdate,
      ← getOr none (optional natural) slidingWindow, ← getOr none (optional Decode.finite) recency,
      ← getOr 0 word seed⟩
  | _ => throw .form

def LearnerConfig.decode : Decode (LearnerConfig Float) := fun json => do
  match ← Fields.decode ["initial_value", "learning_rate", "aspiration"] json with
  | [initialValue, learningRate, aspiration] =>
    return ⟨← getOr 0 Decode.finite initialValue,
      ← getOr none (optional Decode.finite) learningRate,
      ← getOr .aspiration (Schedule.decode .aspiration) aspiration⟩
  | _ => throw .form

def DisclosureConfig.decode : Decode (DisclosureConfig Float) := fun json => do
  let base : DisclosureConfig Float := .standard
  match ← Fields.decode ["interval", "tolerance"] json with
  | [interval, tolerance] =>
    return ⟨← getOr base.interval natural interval, ← getOr base.tolerance Decode.finite tolerance⟩
  | _ => throw .form

def ExpertConfig.decode : Decode (ExpertConfig Float) := fun json => do
  match ← Fields.decode ["name", "reliability", "disclosure", "degrade_factor"] json with
  | [name, reliability, disclosure, degradeFactor] =>
    return ⟨← getOr none (optional text) name, ← get Decode.finite reliability,
      ← getOr .standard DisclosureConfig.decode disclosure,
      ← getOr none (optional Decode.finite) degradeFactor⟩
  | _ => throw .form

def PanelConfig.decode : Decode (PanelConfig Float) := fun json => do
  match ← Fields.decode ["name", "experts"] json with
  | [name, experts] =>
    return ⟨← get text name, ← getOr [] (list ExpertConfig.decode) experts⟩
  | _ => throw .form

namespace ExperimentConfig

def decode : Decode (ExperimentConfig Float) := fun json => do
  match ← Fields.decode ["schema_version", "trials", "runs", "seed", "trust", "learner", "panels",
    "include_baseline"] json with
  | [version, trials, runs, seed, trust, learner, panels, includeBaseline] =>
    return ⟨← get text version, ← getOr 1000 natural trials, ← getOr 1 natural runs,
      ← getOr 0 word seed, ← getOr .standard TrustConfig.decode trust,
      ← getOr .standard LearnerConfig.decode learner, ← getOr [] (list PanelConfig.decode) panels,
      ← getOr false Decode.bool includeBaseline⟩
  | _ => throw .form

/-- The settings written in a text, valid or not. -/
def parse (text : String) : Except ConfigError (ExperimentConfig Float) :=
  match Json.read? text with
  | none => .error .malformed
  | some json => (decode json).mapError fun _ => .malformed

/-- The valid settings in the text of a file; nothing stands for a file that cannot be read. -/
def load (content : Option String) : Except ConfigError (ExperimentConfig Float) := do
  match content with
  | none => throw .unreadable
  | some text =>
    let config ← parse text
    Check.experiment config
    return config

end ExperimentConfig

end Counsel
