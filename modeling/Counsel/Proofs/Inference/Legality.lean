/-
Legality is symbolic. Which factors an elimination makes, over which variables, is settled by the scopes
it starts from (`Factor.congruence_sameShape`), and numbers come in when nothing is left that could be
refused. So two diagrams that are declared alike but for their numbers, with the same variables observed
at whatever values, fare alike along an order: both come to an end, or both are hindered at the same
variable and for the same reason (`legality_symbolic`).
-/
import Counsel.Proofs.Diagram.Frame
import Counsel.Proofs.Diagram.Naming
import Counsel.Proofs.Inference.Carrier
import Counsel.Proofs.Inference.Congruence

namespace Counsel

open Outcome

variable {α : Type}

namespace Factor

theorem entriesOn_ids (evidence : Slots) (ids : List VarId) :
    (entriesOn evidence ids).map (·.1) = ids.filter evidence.isAssigned := by
  induction ids with
  | nil => rfl
  | cons id rest ih =>
    rw [entriesOn] at ih ⊢
    rw [List.filterMap_cons, List.filter_cons, Slots.isAssigned]
    cases evidence.get? id with
    | none => exact ih
    | some p => exact congrArg (id :: ·) ih

/-- The shape of a factor that is made is settled by the shapes of the factors that it is made of. -/
theorem congruence_sameShape {s t : Slots} (observed : s.SameAssigned t) :
    Congruence (SameShape (α := α)) s t where
  assigned := observed
  scope := SameShape.scope
  role := SameShape.role
  observe {f g} h n m := by
    unfold Factor.observe
    simp only [h.scope]
    rw [← entriesOn, ← entriesOn, entriesOn_ids, entriesOn_ids, funext observed]
    refine (Matched.refl (R := Eq) (fun _ => rfl) (fun _ => rfl) _).bind ?_
    rintro scope _ rfl
    exact .ok ⟨rfl, h.role⟩
  sumOut {fs gs} h axis n m := by
    unfold Factor.sumOut
    rw [scopes_of_sameShape h, any_carriesUtility_of_sameShape h]
    refine (Matched.refl (R := Eq) (fun _ => rfl) (fun _ => rfl) _).bind ?_
    rintro scope _ rfl
    exact .ok ⟨rfl, rfl⟩
  maxOut {f g} h axis n m := by
    unfold Factor.maxOut
    rw [h.scope, h.carriesUtility]
    refine (Matched.refl (R := Eq) (fun _ => rfl) (fun _ => rfl) _).bind ?_
    rintro scope _ rfl
    exact .ok ⟨rfl, rfl⟩

end Factor

namespace Diagram

open Infer Factor

variable [Scalar α] {d e : Diagram α} {s t : Slots} {n m : Nat}

/-- Diagrams over the same variables, with utilities over the same variables, differ in numbers alone. -/
theorem corresponds_of_scope (h : d.WellFormed) (k : e.WellFormed) (vars : d.vars = e.vars)
    (topological : d.topological = e.topological) (scope : d.utility.scope = e.utility.scope) :
    d.Corresponds SameShape e where
  vars := vars
  topological := topological
  tables := by
    have tables := k.conditionals
    rw [show e.chanceVars = d.chanceVars by rw [chanceVars, chanceVars, vars]] at tables
    refine forall₂_of_common h.conditionals tables ?_
    rintro v f g ⟨number, own, values, made, over_parents, -⟩ ⟨number', own', values', made', over_parents', -⟩
    obtain ⟨-, rfl⟩ := ofValues_eq_ok.1 made
    obtain ⟨-, rfl⟩ := ofValues_eq_ok.1 made'
    refine ⟨Scope.ext_vars ?_, rfl⟩
    rw [scope_table, scope_table, over_parents, over_parents', pick, pick,
      show d.byId? = e.byId? from funext fun id => by rw [byId?, byId?, vars]]
  utility := by
    obtain ⟨_, _, _, made, -⟩ := h.utility
    obtain ⟨_, _, _, made', -⟩ := k.utility
    refine ⟨scope, ?_⟩
    rw [(ofValues_eq_ok.1 made).2, (ofValues_eq_ok.1 made').2]
    rfl

/-- What stands in the way of an order whatever the numbers are: the order is illegal, or a sum or a
maximum along it has too many variables. -/
def Hinders (e : InferenceError) : Prop :=
  (∃ place fault, e = .illegalOrder place fault) ∨ ∃ names, e = .model (.scopeTooLarge names)

/-- Two orders are followed to their ends, or the same stands in the way of both. -/
inductive FareAlike {β γ : Type} : Except InferenceError β → Except InferenceError γ → Prop
  | accepted {r r'} (h : Accepted r) (k : Accepted r') : FareAlike r r'
  | hindered {e e'} (h : Hinders e) (k : Hinders e') (same : e.unnumbered = e'.unnumbered) :
    FareAlike (.error e) (.error e')

/-- A sweep fails only for a decision that depends on what it does not observe, or for a large sum. -/
theorem hinders_of_sweep (h : d.WellFormed) {vars : List Variable} (sub : ∀ v ∈ vars, v ∈ d.vars)
    {live : VarId → Prop} {nodes : Factor α → Prop} {before : Elimination α}
    (stage : d.Stage live 1 nodes n before.factors) {e : InferenceError}
    (fails : answer (vars.foldlM sweepOne before) n = (.error e, m)) : Hinders e := by
  obtain ⟨pre, v, post, state, k, nodes', -, -, -, -, stopped⟩ := sweep_stops h sub stage fails
  rcases stopped with ⟨-, base, u, -, -, rfl⟩ | ⟨-, fails⟩
  · exact .inl ⟨_, _, rfl⟩
  · exact .inr (eliminate_error fails)

/-- After complete sweeps in step two orders fare alike. -/
theorem fareAlike_conclude (h : d.WellFormed) (k : e.WellFormed) (same : d.Corresponds SameShape e)
    (observed : s.SameAssigned t) (admits : d.Admits s) (admits' : e.Admits t) {a b : Elimination α}
    {nodes nodes' : Factor α → Prop} (graph : Graph d.vars nodes) (members : ∀ f ∈ a.factors, nodes f)
    (closed : ∀ f ∈ a.factors, f.scope.vars = []) (graph' : Graph e.vars nodes')
    (members' : ∀ f ∈ b.factors, nodes' f) (closed' : ∀ f ∈ b.factors, f.scope.vars = []) (n m : Nat) :
    FareAlike (answer (d.conclude s a) n).1 (answer (e.conclude t b) m).1 := by
  have unobserved : s.assigned = [] ↔ t.assigned = [] := by
    rw [← List.map_eq_nil_iff (f := (·.1)), observed.assigned_eq, List.map_eq_nil_iff]
  by_cases none_observed : s.assigned = []
  · exact .accepted (accepted_of_probable h admits graph members closed (.inl none_observed))
      (accepted_of_probable k admits' graph' members' closed' (.inl (unobserved.1 none_observed)))
  · have probable : Parallel (fun _ _ => True) (d.evidenceProbability s) (e.evidenceProbability t) :=
      same.evidenceProbability_parallel (congruence_sameShape observed) h k admits admits' trivial
        fun _ _ _ => trivial
    have matched := probable n m
    rcases evidenceProbability_outcome h admits n with ⟨p, l, there⟩ | ⟨-, names, l, large⟩ <;>
      rcases evidenceProbability_outcome k admits' m with ⟨p', l', there'⟩ | ⟨-, names', l', large'⟩
    · exact .accepted (accepted_of_probable h admits graph members closed (.inr ⟨p, l, there⟩))
        (accepted_of_probable k admits' graph' members' closed' (.inr ⟨p', l', there'⟩))
    · rw [there, large'] at matched
      cases matched
    · rw [large, there'] at matched
      cases matched
    · rw [large, large'] at matched
      rw [conclude_of_improbable h admits graph members closed none_observed large,
        conclude_of_improbable k admits' graph' members' closed' (mt unobserved.2 none_observed) large']
      cases matched with
      | error same => exact .hindered (.inr ⟨_, rfl⟩) (.inr ⟨_, rfl⟩) same

/-- Along one order, with the same variables observed, diagrams that differ in numbers alone fare
alike. -/
theorem fareAlike_optimize (h : d.WellFormed) (k : e.WellFormed) (same : d.Corresponds SameShape e)
    (order : EliminationOrder) {observations observations' : Assignment}
    (valid : d.slotsOf observations = .ok s) (valid' : e.slotsOf observations' = .ok t)
    (observed : s.SameAssigned t) (n m : Nat) :
    FareAlike (answer (d.optimize order observations) n).1
      (answer (e.optimize order observations') m).1 := by
  have keeps := congruence_sameShape (α := α) observed
  have requisite := same.requisiteChance_eq keeps
  have checks := same.checkOrder_eq observed order.ids (d.requisiteChance s)
  rw [requisite] at checks
  rcases checked : d.checkOrder order.ids (d.requisiteChance s) s with err | ⟨⟨⟩⟩
  · obtain ⟨place, fault, rfl, -⟩ := checkOrder_error checked
    rw [optimize_of_unchecked valid checked]
    rw [requisite, checks] at checked
    rw [optimize_of_unchecked valid' checked]
    exact .hindered (.inl ⟨_, _, rfl⟩) (.inl ⟨_, _, rfl⟩) rfl
  · have consistent := (checkOrder_eq_ok h).1 checked
    rw [requisite, checks] at checked
    have consistent' := (checkOrder_eq_ok k).1 checked
    have admits := h.admits_of_slotsOf valid
    have admits' := k.admits_of_slotsOf valid'
    obtain ⟨fs, i, nodes, filled, stage, -, run⟩ := optimize_eq_sweep h valid consistent n
    obtain ⟨gs, j, nodes', filled', stage', -, run'⟩ := optimize_eq_sweep k valid' consistent' m
    have started := keeps.project_parallel (same.startTables_related keeps) n m
    rw [filled, filled'] at started
    cases started with
    | ok started =>
      have along : d.sweepOf s order = e.sweepOf t order := by
        rw [sweepOf, sweepOf, requisite, same.participants_eq observed]
      have swept := keeps.sweep_parallel (d.sweepOf s order) (a := ⟨fs, []⟩) (b := ⟨gs, []⟩) started i j
      rw [run, run', answer_bind, answer_bind, ← along]
      rcases ran : answer ((d.sweepOf s order).foldlM sweepOne ⟨fs, []⟩) i with ⟨err | a, i'⟩ <;>
        rcases ran' : answer ((d.sweepOf s order).foldlM sweepOne ⟨gs, []⟩) j with ⟨err' | b, j'⟩
      · rw [ran, ran'] at swept
        rw [along] at ran'
        cases swept with
        | error same =>
          exact .hindered (hinders_of_sweep h (sweepOf_sub h) stage ran)
            (hinders_of_sweep k (sweepOf_sub k) stage' ran') same
      · rw [ran, ran'] at swept
        cases swept
      · rw [ran, ran'] at swept
        cases swept
      · rw [along] at ran'
        obtain ⟨_, last, -⟩ := stage_sweep (sweepOf_sub h) stage ran
        obtain ⟨_, last', -⟩ := stage_sweep (sweepOf_sub k) stage' ran'
        exact fareAlike_conclude h k same observed admits admits' last.toGraph last.members
          (last.residue h consistent).1 last'.toGraph last'.members (last'.residue k consistent').1 i' j'

/-! ## Declarations -/

/-- Each observation is of a variable and a value of its domain. -/
def Observable (d : Diagram α) (observations : Assignment) : Prop :=
  ∀ name value, observations.get? name = some value → ∃ v ∈ d.vars, v.name = name ∧ value ∈ v.domain

/-- Observations under the same names are of the same variables. -/
theorem sameAssigned_of_names (h : d.WellFormed) (k : e.WellFormed) (vars : d.vars = e.vars)
    {observations observations' : Assignment} (names : observations.names = observations'.names)
    (valid : d.slotsOf observations = .ok s) (valid' : e.slotsOf observations' = .ok t) :
    s.SameAssigned t := by
  intro id
  by_cases known : ∃ v ∈ d.vars, v.id = id
  · obtain ⟨v, hv, rfl⟩ := known
    rw [Bool.eq_iff_iff, h.isAssigned_slotsOf valid hv, k.isAssigned_slotsOf valid' (vars ▸ hv),
      Option.isSome_iff_exists, Option.isSome_iff_exists, ← NameMap.mem_names, ← NameMap.mem_names, names]
  · rw [Bool.eq_iff_iff]
    refine ⟨fun assigned => absurd ((h.admits_of_slotsOf valid).known id assigned) known,
      fun assigned => absurd ?_ known⟩
    rw [vars]
    exact (k.admits_of_slotsOf valid').known id assigned

/-- Observations of something else are refused for the name or for the value. -/
theorem slotsOf_of_not_observable (h : d.WellFormed) {observations : Assignment}
    (unknown : ¬ d.Observable observations) : ∃ err, d.slotsOf observations = .error err ∧
      ((∃ name, err = .unknownVariable name) ∨ ∃ name value, err = .unknownValue name value) := by
  rcases made : d.slotsOf observations with err | slots
  · refine ⟨err, rfl, ?_⟩
    rcases bind_eq_error.1 made with fails | ⟨_, -, done⟩
    · obtain ⟨entry, -, fails⟩ := exists_of_mapM_eq_error fails
      unfold namedSlot at fails
      rcases bind_eq_error.1 fails with missing | ⟨v, -, fails⟩
      · unfold lookup at missing
        split at missing
        · cases missing
        · cases missing
          exact .inl ⟨_, rfl⟩
      · split at fails
        · cases fails
          exact .inr ⟨_, _, rfl⟩
        · cases fails
    · cases done
  · exact absurd (fun _ _ held => exists_of_slotsOf h made held) unknown

/-- Legality is symbolic. Two diagrams are declared alike but for their numbers, and the same variables
are observed in both, perhaps at other values. Along any order they fare alike, whatever numbers were given
out to factors before: both come to a solution or to evidence without probability, or the order is illegal
in both, at the same place and for the same reason, or the same scope is too large in both. Where an
observation is not of a variable and a value of its domain, it is refused as such. -/
theorem legality_symbolic {a b : Declaration α} (frame : a.SameFrame b) (built : a.build = .ok d)
    (built' : b.build = .ok e) (order : EliminationOrder) {observations observations' : Assignment}
    (names : observations.names = observations'.names) (n m : Nat) :
    (d.Observable observations → e.Observable observations' →
      FareAlike (answer (d.optimize order observations) n).1
        (answer (e.optimize order observations') m).1) ∧
    (¬ d.Observable observations → ∃ err, answer (d.optimize order observations) n = (.error (.model err), n) ∧
      ((∃ name, err = .unknownVariable name) ∨ ∃ name value, err = .unknownValue name value)) := by
  have h := Declaration.wellFormed_of_build built
  have k := Declaration.wellFormed_of_build built'
  have vars := frame.vars_eq built built'
  refine ⟨fun known known' => ?_, fun unknown => ?_⟩
  · obtain ⟨s, valid⟩ := exists_slotsOf h known
    obtain ⟨t, valid'⟩ := exists_slotsOf k known'
    have same := corresponds_of_scope h k vars (frame.topological_eq built built')
      (frame.utility_scope_eq built built')
    exact fareAlike_optimize h k same order valid valid' (sameAssigned_of_names h k vars names valid valid') n m
  · obtain ⟨err, refused, reason⟩ := slotsOf_of_not_observable h unknown
    refine ⟨err, ?_, reason⟩
    unfold optimize
    rw [refused, answer_bind_of_error (answer_ofModel_error err n)]

/-- The umbrella where it never rains and every forecast is right. -/
def desert : Declaration Rat where
  vars := umbrella.vars
  cpts := [⟨"Forecast", ["Weather"], [1, 0, 0, 1]⟩, ⟨"Weather", [], [1, 0]⟩]
  utilities := [⟨["Weather", "Umbrella"], [1, 0, 0, 0]⟩]

def desertDiagram : Diagram Rat := desert.build.toOption.get (by decide +kernel)

theorem build_desert : desert.build = .ok desertDiagram := eq_ok_get _

theorem sameFrame_desert : umbrella.SameFrame desert where
  vars := rfl
  tables := List.Perm.swap _ _ _
  utilities := rfl

/-- A sunny forecast where the weather changes and a rainy one in the desert, which cannot be. -/
theorem legality_desert :
    umbrella.SameFrame desert ∧
    FareAlike
      (answer (umbrellaDiagram.optimize ⟨[⟨0⟩, ⟨2⟩]⟩ (NameMap.ofList [("Forecast", .text "sunny")])) 2).1
      (answer (desertDiagram.optimize ⟨[⟨0⟩, ⟨2⟩]⟩ (NameMap.ofList [("Forecast", .text "rainy")])) 5).1 ∧
    (match (answer (desertDiagram.optimize ⟨[⟨0⟩, ⟨2⟩]⟩
        (NameMap.ofList [("Forecast", .text "rainy")])) 5).1 with
      | .error e => some e
      | .ok _ => none) = some .zeroEvidence := by
  have sunny := @eq_ok_get _ _
    (umbrellaDiagram.slotsOf (NameMap.ofList [("Forecast", .text "sunny")])) (by decide +kernel)
  have rainy := @eq_ok_get _ _
    (desertDiagram.slotsOf (NameMap.ofList [("Forecast", .text "rainy")])) (by decide +kernel)
  refine ⟨sameFrame_desert, ?_, ?_⟩
  · exact (legality_symbolic sameFrame_desert build_umbrella build_desert ⟨[⟨0⟩, ⟨2⟩]⟩ (by decide) 2 5).1
      (fun _ _ => exists_of_slotsOf (Declaration.wellFormed_of_build build_umbrella) sunny)
      (fun _ _ => exists_of_slotsOf (Declaration.wellFormed_of_build build_desert) rainy)
  · decide +kernel

end Diagram

end Counsel
