/-
All that can go wrong, and how it is reported: every error has a stable code, a category, a text,
and whether a further attempt with other input can succeed. Codes from 10 are configuration, from
20 models, from 30 inference, from 40 agents and experts, from 60 input and output.
-/
import Counsel.Inference.Error
import Counsel.Layout
import Counsel.Config.Valid

namespace Counsel

/-- Whatever a component can fail with. -/
inductive Error where
  | model (error : ModelError)
  | layout (error : LayoutError)
  | inference (error : InferenceError)
  | config (error : ConfigError)
  | unknownExpert (name : String)
  | agent (name text : String)
  deriving DecidableEq

def Error.message : Error → String
  | .model error => error.message
  | .layout error => error.message
  | .inference error => error.message
  | .config error => error.message
  | .unknownExpert name => "unknown expert: " ++ name
  | .agent name text => name ++ ": " ++ text

/-- A group of errors. -/
inductive Category where
  | config
  | model
  | inference
  | agent
  | io
  deriving DecidableEq

def Category.render : Category → String
  | .config => "config"
  | .model => "model"
  | .inference => "inference"
  | .agent => "agent"
  | .io => "io"

/-- What a report says about an error. -/
structure Report where
  code : Nat
  category : Category
  message : String
  recoverable : Bool
  deriving DecidableEq

/-- An error as it is reported. -/
inductive Failure where
  | config (text : String)
  | invalidParameter (field text : String)
  | model (text : String)
  | unknownVariable (name : String)
  | unknownValue (name value : String)
  | inference (text : String)
  | illegalOrder (text : String)
  | zeroEvidence
  | agent (text : String)
  | expert (text : String)
  | io (text : String)
  | json (text : String)
  deriving DecidableEq

namespace Failure

/-- The report of a failure. -/
def report : Failure → Report
  | .config text => ⟨10, .config, "configuration error: " ++ text, false⟩
  | .invalidParameter field text =>
    ⟨11, .config, "invalid value for " ++ field ++ ": " ++ text, false⟩
  | .model text => ⟨20, .model, "model error: " ++ text, false⟩
  | .unknownVariable name => ⟨21, .model, "unknown variable: " ++ name, false⟩
  | .unknownValue name value =>
    ⟨22, .model, "value " ++ value ++ " is not in the domain of " ++ name, false⟩
  | .inference text => ⟨30, .inference, "inference failed: " ++ text, true⟩
  | .illegalOrder text => ⟨31, .inference, "illegal elimination order: " ++ text, false⟩
  | .zeroEvidence => ⟨32, .inference, "observations have zero probability", true⟩
  | .agent text => ⟨40, .agent, "agent error: " ++ text, false⟩
  | .expert text => ⟨41, .agent, "expert error: " ++ text, false⟩
  | .io text => ⟨60, .io, "I/O error: " ++ text, true⟩
  | .json text => ⟨61, .io, "JSON serialization error: " ++ text, false⟩

def ofModel : ModelError → Failure
  | .unknownVariable name => .unknownVariable name
  | .unknownValue name value => .unknownValue name value.render
  | error => .model error.message

def ofLayout : LayoutError → Failure
  | .unknownValue name value => .unknownValue name value.render
  | error => .model error.message

def ofInference : InferenceError → Failure
  | .model error => ofModel error
  | .zeroEvidence => .zeroEvidence
  | .illegalOrder place fault => .illegalOrder (InferenceError.illegalOrder place fault).message
  | error => .inference error.message

def ofConfig : ConfigError → Failure
  | .invalidValue field fault => .invalidParameter field fault.message
  | error => .config error.message

def ofError : Error → Failure
  | .model error => ofModel error
  | .layout error => ofLayout error
  | .inference error => ofInference error
  | .config error => ofConfig error
  | .unknownExpert name => .expert (Error.unknownExpert name).message
  | .agent name text => .agent (Error.agent name text).message

end Failure

/-- The report of an error. -/
def Error.report (error : Error) : Report := (Failure.ofError error).report

/-! ## Steps -/

/-- A step of a component with a state. What a failing step has changed stays changed. -/
abbrev Step (σ β : Type) := ExceptT Error (StateM σ) β

namespace Step

variable {σ τ β : Type}

/-- The answer of a step and the state after it. -/
def answer (step : Step σ β) (state : σ) : Except Error β × σ := (step.run).run state

/-- A step of a part of a larger state. -/
def within (part : τ → σ) (replace : τ → σ → τ) (step : Step σ β) : Step τ β := fun whole =>
  let (result, state) := step.answer (part whole)
  (result, replace whole state)

def ofLayout (result : Except LayoutError β) : Step σ β :=
  match result with
  | .ok x => return x
  | .error e => throw (.layout e)

def ofModel (result : Except ModelError β) : Step σ β :=
  match result with
  | .ok x => return x
  | .error e => throw (.model e)

/-- A step repeated, with the list of its answers. -/
def times (step : Step σ β) : Nat → Step σ (List β)
  | 0 => return []
  | count + 1 => return (← step) :: (← times step count)

end Step

end Counsel
