/-
Declarations of diagrams, and the checks that turn one into a diagram. The checks run in a fixed
order and the first fault found is reported: names and domains, arcs, missing tables, cycles, and
then the numbers of each table.
-/
import Counsel.Diagram.Basic
import Counsel.Diagram.Topological
import Counsel.Scalar.Weights

namespace Counsel

/-- A declared variable; `info` lists what a decision observes. -/
structure VariableDecl where
  name : String
  kind : Kind
  domain : List Value
  info : List String

/-- A declared conditional table: rows of child probabilities, the last parent varying fastest. -/
structure CptDecl (α : Type) where
  child : String
  parents : List String
  values : List α

/-- A declared utility table. -/
structure UtilityDecl (α : Type) where
  scope : List String
  values : List α

/-- Everything that is declared about a diagram. -/
structure Declaration (α : Type) where
  vars : List VariableDecl
  cpts : List (CptDecl α)
  utilities : List (UtilityDecl α)

/-- A declared conditional table with the ids of its child and its parents. -/
structure ResolvedCpt (α : Type) where
  child : VarId
  parents : List VarId
  decl : CptDecl α

namespace Declaration

variable {α : Type}

/-! ## Names and arcs -/

/-- The first value of a domain that came before. -/
def repeatedValue? (seen : List Value) : List Value → Option Value
  | [] => none
  | v :: rest => if v ∈ seen then some v else repeatedValue? (v :: seen) rest

/-- Refuses repeated names, empty domains and repeated values. -/
def checkVariables (seen : List String) : List VariableDecl → Except ModelError Unit
  | [] => .ok ()
  | v :: rest =>
    if v.name ∈ seen then .error (.duplicateVariable v.name)
    else if v.domain = [] then .error (.emptyDomain v.name)
    else match repeatedValue? [] v.domain with
      | some value => .error (.duplicateValue v.name value)
      | none => checkVariables (v.name :: seen) rest

/-- The id and the declaration of a name. -/
def resolve (decl : Declaration α) (name : String) : Except ModelError (VarId × VariableDecl) :=
  match decl.vars.zipIdx.find? (·.1.name == name) with
  | some (v, i) => .ok (⟨i⟩, v)
  | none => .error (.unknownVariable name)

/-- The id of a parent of a chance variable, which must not be a decision. -/
def resolveParent (decl : Declaration α) (child name : String) : Except ModelError VarId := do
  let (id, v) ← decl.resolve name
  if v.kind = .decision then throw (.decisionParentOfChance name child)
  return id

/-- Resolves the names of conditional tables; each belongs to another chance variable. -/
def resolveCpts (decl : Declaration α) (done : List (ResolvedCpt α)) :
    List (CptDecl α) → Except ModelError (List (ResolvedCpt α))
  | [] => .ok done
  | table :: rest => do
    let (child, v) ← decl.resolve table.child
    if v.kind ≠ .chance then throw (.notChance table.child)
    if done.any (·.child == child) then throw (.duplicateCpt table.child)
    let parents ← table.parents.mapM (decl.resolveParent table.child)
    resolveCpts decl (done ++ [⟨child, parents, table⟩]) rest

/-- The parents of a declared variable: those of its table, or what the decision observes. -/
def parentsOf (decl : Declaration α) (cpts : List (ResolvedCpt α)) (v : VariableDecl) (id : VarId) :
    Except ModelError (List VarId) :=
  match v.kind with
  | .chance =>
    match cpts.find? (·.child == id) with
    | some cpt => .ok cpt.parents
    | none => .error (.missingCpt v.name)
  | .decision => v.info.mapM fun name => return (← decl.resolve name).1

/-- The variables of a declaration. -/
def resolveVariables (decl : Declaration α) (cpts : List (ResolvedCpt α)) :
    Except ModelError (List Variable) :=
  decl.vars.zipIdx.mapM fun (v, i) => do
    let parents ← decl.parentsOf cpts v ⟨i⟩
    return ⟨⟨i⟩, v.name, v.kind, v.domain, parents⟩

/-- The order of the variables, parents first. -/
def sortVariables (declared : List Variable) : Except ModelError (List VarId) :=
  match Topological.sort (declared.map fun v => v.parents.map (·.index)) with
  | .ok order => .ok (order.map (⟨·⟩))
  | .error stuck => .error (.cycle ((declared[stuck]?).elim "" (·.name)))

/-! ## Numbers -/

/-- The scope of a list of names. -/
def resolveScope (decl : Declaration α) (declared : List Variable) (names : List String) :
    Except ModelError Scope := do
  let vars ← names.mapM fun name => do
    let (id, _) ← decl.resolve name
    match declared[id.index]? with
    | some v => return v
    | none => throw (.unknownVariable name)
  Scope.ofVars vars

variable [Scalar α]

/-- How far the sum of a row may be from one. -/
def rowTolerance : α := 1e-6

/-- The first row whose sum is not one: its number and its sum. `width` is not zero. -/
def badRow? (width row : Nat) (values : List α) : Nat → Option (Nat × α)
  | 0 => none
  | count + 1 =>
    let sum := Scalar.total (values.take width)
    if sum - 1 > rowTolerance || 1 - sum > rowTolerance then some (row, sum)
    else badRow? width (row + 1) (values.drop width) count

/-- Refuses entries that are no probabilities and rows that do not sum to one. A table of the wrong
size passes if it does not fall into rows. -/
def checkCpt (child : Variable) (values : List α) : Except ModelError Unit :=
  match values.findIdx? fun x => !Scalar.isFinite x || decide (x < 0) with
  | some index => .error (.invalidProbability child.name index)
  | none =>
    if values.length % child.card ≠ 0 then .ok ()
    else match badRow? child.card 0 values (values.length / child.card) with
      | some (row, sum) => .error (.rowSum child.name row (Scalar.write .plain sum))
      | none => .ok ()

/-- The conditional tables of the variables, numbered from `number` on. -/
def buildCpts (decl : Declaration α) (declared : List Variable) (cpts : List (ResolvedCpt α))
    (number : Nat) : List Variable → Except ModelError (List (Option (Factor α)))
  | [] => .ok []
  | v :: rest => do
    match cpts.find? (·.child == v.id) with
    | none => return none :: (← buildCpts decl declared cpts number rest)
    | some cpt =>
      let scope ← decl.resolveScope declared (cpt.decl.parents ++ [cpt.decl.child])
      checkCpt v cpt.decl.values
      let factor ← Factor.ofValues number scope (.probability v.id) cpt.decl.values.toArray
      return some factor :: (← buildCpts decl declared cpts (number + 1) rest)

/-- The one utility table. -/
def theUtility : List (UtilityDecl α) → Except ModelError (UtilityDecl α)
  | [] => .error .missingUtility
  | [table] => .ok table
  | _ => .error .duplicateUtility

/-- The utility table as a factor. -/
def buildUtility (decl : Declaration α) (declared : List Variable) (number : Nat)
    (table : UtilityDecl α) : Except ModelError (Factor α) :=
  match table.values.findIdx? fun x => !Scalar.isFinite x with
  | some index => .error (.invalidUtility index)
  | none => do
    let scope ← decl.resolveScope declared table.scope
    Factor.ofValues number scope .utility table.values.toArray

/-- The diagram of a declaration, or the first fault of it. -/
def build (decl : Declaration α) : Except ModelError (Diagram α) := do
  checkVariables [] decl.vars
  let cpts ← decl.resolveCpts [] decl.cpts
  let declared ← decl.resolveVariables cpts
  let topological ← sortVariables declared
  let table ← theUtility decl.utilities
  let factors ← decl.buildCpts declared cpts 0 declared
  let utility ← decl.buildUtility declared cpts.length table
  return ⟨declared, factors, utility, topological, cpts.length + 1⟩

end Declaration

end Counsel
