/-
Diagrams, distributions and solutions as JSON. Variables go by their names, and factors by their
labels.
-/
import Counsel.Inference.Solve
import Counsel.Json.Text

namespace Counsel

open JsonText

namespace Diagram

/-- The id of a variable. -/
def idText (id : VarId) : String := text id.render

/-- The names of some variables. -/
def nameTexts (vars : List Variable) : String := listOf (text ·.name) vars

/-- The label of a factor. -/
def labelText (f : Factor Float) : String := text f.label.render

/-- Positions of variables. -/
def heldText (held : List (VarId × Nat)) : String :=
  listOf (fun (id, i) => pair (idText id) (nat i)) held

/-- Values with their probabilities. -/
def distributionText (entries : List (Value × Float)) : String :=
  listOf (fun (v, p) => pair (value v) (float p)) entries

/-- What a factor stands for. -/
def roleText (d : Diagram Float) : Role → String
  | .probability child => "probability " ++ (d.byId? child).elim "" (·.name)
  | .utility => "utility"
  | .derived carries => "derived " ++ bool carries

/-- A factor of a diagram, without its values. -/
def factorText (d : Diagram Float) (f : Factor Float) : String :=
  object [("factor", labelText f), ("size", nat f.scope.size), ("role", text (d.roleText f.role)),
    ("carries_utility", bool f.carriesUtility)]

/-- A scope. -/
def scopeText (scope : Scope) : String :=
  object [("vars", listOf text scope.names), ("size", nat scope.size)]

/-- A variable of a diagram. -/
def variableText (d : Diagram Float) (v : Variable) : String :=
  object [("id", idText v.id), ("name", text v.name), ("decision", bool v.isDecision),
    ("domain", listOf value v.domain), ("card", nat v.card),
    ("parents", nameTexts (d.pick v.parents)), ("cpt", orNull labelText (d.cpt? v.id))]

/-- A diagram with its variables, its orders and its utilities. -/
def toJsonText (d : Diagram Float) : Except ModelError String := do
  let names (ids : List VarId) := nameTexts (d.pick ids)
  return object [("variables", listOf (variableText d) d.vars),
    ("topological", names d.topological), ("chance", names d.chanceOrder),
    ("decisions", names d.decisionOrder), ("utility", labelText d.utility),
    ("utility_values", listOf float (← Evaluate.answerFrom .empty d.utility.materialize)),
    ("probability_factors", nat d.probabilityFactors.length),
    ("for_decisions", names (EliminationOrder.forDecisions d).ids)]

end Diagram

def DecisionRule.toJsonText (rule : DecisionRule Float) : Except ModelError String := do
  return object [("decision", text rule.decision.name), ("inputs", Diagram.nameTexts rule.inputs),
    ("factor", orNull Diagram.labelText rule.factor),
    ("rows", listOf (fun (inputs, v) => pair (assignment inputs) (value v)) (← rule.rows))]

def Solution.toJsonText (solution : Solution Float) : Except ModelError String := do
  return object [("eu", float solution.expectedUtility),
    ("rules", list (← solution.rules.mapM (·.toJsonText)))]

end Counsel
