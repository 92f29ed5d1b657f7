/-
Reading declarations of diagrams from JSON: an object with the lists `variables`, `cpts` and
`utilities`. A list in it may be missing and is empty then; only a domain may not.
-/
import Counsel.Diagram.Declaration
import Counsel.Json.Decode

namespace Counsel

open Decode

def Kind.decode : Decode Kind
  | .string (some "chance") => .ok .chance
  | .string (some "decision") => .ok .decision
  | _ => .error .form

def VariableDecl.decode : Decode VariableDecl := fun json =>
  return ⟨← member "name" text json, ← member "kind" Kind.decode json,
    ← member "domain" (list value) json, ← memberItems "info" text json⟩

def CptDecl.decode : Decode (CptDecl Float) := fun json =>
  return ⟨← member "child" text json, ← memberItems "parents" text json,
    ← memberItems "values" Decode.float json⟩

def UtilityDecl.decode : Decode (UtilityDecl Float) := fun json =>
  return ⟨← memberItems "scope" text json, ← memberItems "values" Decode.float json⟩

def Declaration.decode : Decode (Declaration Float) := fun json =>
  return ⟨← memberItems "variables" VariableDecl.decode json, ← memberItems "cpts" CptDecl.decode json,
    ← memberItems "utilities" UtilityDecl.decode json⟩

end Counsel
