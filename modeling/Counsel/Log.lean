/-
Settings of log output, as they come from variables of the environment and from overrides. A level
that is set for this library alone wins over the general one, and an override wins over both.
-/
import Counsel.Text.Blank

namespace Counsel.Log

/-- How much is written, from everything to nothing. -/
inductive Level where
  | trace
  | debug
  | info
  | warn
  | error
  | off
  deriving DecidableEq

/-- How lines are written. -/
inductive Format where
  | human
  | jsonl
  deriving DecidableEq

/-- What a line is about. -/
inductive Stage where
  | solve
  | act
  | learn
  | advise
  | run
  deriving DecidableEq

/-- A word that names no level or no format. -/
inductive UnknownWord where
  | level (word : String)
  | format (word : String)
  deriving DecidableEq

def UnknownWord.message : UnknownWord → String
  | .level word => "unknown log level: " ++ word
  | .format word => "unknown log format: " ++ word

/-- A text without blanks at its ends, in small letters. -/
def word (text : String) : String := Text.lowerAscii (Text.trim text)

namespace Level

def render : Level → String
  | .trace => "trace"
  | .debug => "debug"
  | .info => "info"
  | .warn => "warn"
  | .error => "error"
  | .off => "off"

/-- The place of a level, the most verbose one first. -/
def rank : Level → Nat
  | .trace => 0
  | .debug => 1
  | .info => 2
  | .warn => 3
  | .error => 4
  | .off => 5

def parse (text : String) : Except UnknownWord Level :=
  match word text with
  | "trace" => .ok .trace
  | "debug" => .ok .debug
  | "info" => .ok .info
  | "warn" | "warning" => .ok .warn
  | "error" => .ok .error
  | "off" | "quiet" => .ok .off
  | other => .error (.level other)

/-- The more verbose of two levels. -/
def moreVerbose (a b : Level) : Level := if a.rank ≤ b.rank then a else b

/-- The part of a directive after its last equals sign. -/
def levelPart (directive : String) : String :=
  String.ofList (directive.toList.reverse.takeWhile (· != '=')).reverse

/-- The most verbose level that a list of directives such as `warn,solver=debug` names; those that
name none do not count. -/
def mostVerbose? (directives : String) : Option Level :=
  match (directives.splitOn ",").filterMap fun d => (parse (levelPart d)).toOption with
  | [] => none
  | level :: rest => some (rest.foldl moreVerbose level)

end Level

namespace Format

def render : Format → String
  | .human => "human"
  | .jsonl => "jsonl"

def parse (text : String) : Except UnknownWord Format :=
  match word text with
  | "human" | "text" | "pretty" => .ok .human
  | "jsonl" | "json" => .ok .jsonl
  | other => .error (.format other)

end Format

namespace Stage

def render : Stage → String
  | .solve => "solve"
  | .act => "act"
  | .learn => "learn"
  | .advise => "advise"
  | .run => "run"

def parse? : String → Option Stage
  | "solve" => some .solve
  | "act" => some .act
  | "learn" => some .learn
  | "advise" => some .advise
  | "run" => some .run
  | _ => none

end Stage

/-- Settings of log output. -/
structure Settings where
  format : Format
  level : Level
  /-- Whether lines for people begin with the time. -/
  timestamps : Bool
  deriving DecidableEq

namespace Settings

def standard : Settings := ⟨.human, .info, true⟩

/-- The level that the environment sets. -/
def levelFrom (lookup : String → Option String) : Option Level :=
  match (lookup "CLUE_LOG").bind fun text => (Level.parse text).toOption with
  | some level => some level
  | none => (lookup "RUST_LOG").bind Level.mostVerbose?

/-- The format that the environment sets. -/
def formatFrom (lookup : String → Option String) : Option Format :=
  (lookup "CLUE_LOG_FORMAT").bind fun text => (Format.parse text).toOption

/-- The settings from the environment and from overrides. -/
def fromLookup (lookup : String → Option String) (level : Option Level) (format : Option Format) :
    Settings where
  format := (format.or (formatFrom lookup)).getD standard.format
  level := (level.or (levelFrom lookup)).getD standard.level
  timestamps := standard.timestamps

/-- The directive that applies a level to the parts of this library that log. -/
def directive (settings : Settings) : String :=
  let level := settings.level.render
  "clue_core=" ++ level ++ ",clue_math=" ++ level

end Settings

end Counsel.Log
