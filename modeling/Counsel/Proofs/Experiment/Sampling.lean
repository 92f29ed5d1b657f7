/-
What comes of the states that an environment draws. The table of a chance variable has a positive entry for
its value under the values of its parents (`Possible.conditionalAt`), so a state is evidence of positive
probability (`Possible.evidenceProbability`), and with a joint action it is never refused as evidence that has
none (`Possible.evaluable`). This goes for every state that is drawn, in trial after trial, also where the
rows of the tables add up to a little less than one (`DiagramEnvironment.sampled_of_resets`).
-/
import Counsel.Proofs.Experiment.Environment
import Counsel.Proofs.Experiment.Oracle
import Counsel.Proofs.Diagram.Slices

namespace Counsel

open Outcome World

namespace Diagram

variable {d : Diagram Rat} {state action : Assignment}

/-! ## Entries of the tables -/

/-- The entry of a conditional table for a value of its child, under the values of the parents, is what the
table says in the world that the values show. -/
theorem conditionalAt_of_shows (h : d.WellFormed) {v : Variable} (hv : v ∈ d.chanceVars) {f : Factor Rat}
    (cond : d.Conditional v f) {x : World} (range : x.InRange d.vars) (shown : state.Shows d.chanceVars x)
    {value : Value} (held : state.get? v.name = some value) :
    f.conditionalAt state value = .ok (f.valueIn x) := by
  obtain ⟨mem, chance⟩ := mem_chanceVars.1 hv
  obtain ⟨_, known, found⟩ := Scope.namedPosition_eq_ok.1 (shown v hv)
  cases held.symm.trans known
  have lt : x v.id < v.card := Scope.namedPosition_lt (shown v hv)
  have parents : state.Shows (d.pick v.parents) x := fun u hu => by
    obtain ⟨hu, parent⟩ := h.mem_pick.1 hu
    obtain ⟨w, hw, same, kind⟩ := h.parents v mem u.id parent
    exact shown u (mem_chanceVars.2 ⟨hu, h.inj w hw u hu same ▸ kind chance⟩)
  obtain ⟨number, scope, values, made, vars, -⟩ := cond
  obtain ⟨size, rfl⟩ := Factor.ofValues_eq_ok.1 made
  have inRange : x.InRange scope.vars := fun u hu => by
    rw [vars, List.mem_append, List.mem_singleton] at hu
    rcases hu with hu | rfl
    · exact range u (h.mem_pick.1 hu).1
    · exact lt
  have cell := Scope.indexAt_last vars x (x v.id)
  rw [Function.update_eq_self] at cell
  have there : values[scope.indexAt x]? = some (values[scope.indexAt x]?.getD 0) := by
    rw [Array.getElem?_eq_getElem (size ▸ Scope.indexAt_lt inRange), Option.getD_some]
  exact Factor.conditionalAt_of_rowStart (childVariable_of_last vars) (rowStart_of_shows vars parents)
    found (cell ▸ there)

/-- Slots of a state are evidence on every chance variable, and show it. -/
theorem Possible.slotsOf (h : d.WellFormed) (possible : d.Possible state) :
    ∃ slots, d.slotsOf state = .ok slots ∧ d.Disclosed slots ∧ state.Shows d.chanceVars slots.world := by
  obtain ⟨slots, made⟩ := possible.assigns.exists_slotsOf h
  have disclosed : d.Disclosed slots := fun v hv => by
    obtain ⟨hv, chance⟩ := mem_chanceVars.1 hv
    obtain ⟨value, -, held⟩ := possible.assigns.valued v hv chance
    exact (h.isAssigned_slotsOf made hv).2 (held ▸ rfl)
  exact ⟨slots, made, disclosed, shows_slotsOf h made fun v hv => ⟨(mem_chanceVars.1 hv).1, disclosed v hv⟩⟩

/-- A possible state gives each chance variable a value whose entry is positive, under the values that it gives
the parents. -/
theorem Possible.conditionalAt (h : d.WellFormed) (possible : d.Possible state) {v : Variable}
    (hv : v ∈ d.vars) (chance : v.kind = .chance) :
    ∃ f value x, d.cpt? v.id = some f ∧ state.get? v.name = some value ∧
      f.conditionalAt state value = .ok x ∧ 0 < x := by
  have listed := mem_chanceVars.2 ⟨hv, chance⟩
  obtain ⟨f, mem, found, cond⟩ := exists_conditional h listed
  obtain ⟨slots, made, -, shown⟩ := possible.slotsOf h
  obtain ⟨value, -, held⟩ := possible.assigns.valued v hv chance
  have range := h.world_inRange (h.admits_of_slotsOf made).within
  exact ⟨f, value, _, found, held, conditionalAt_of_shows h listed cond range shown held,
    possible.positive slots made f mem⟩

/-! ## States as evidence -/

/-- The probability of a possible state is positive. -/
theorem Possible.evidenceProbability (h : d.WellFormed) (possible : d.Possible state) :
    ∃ slots p, d.slotsOf state = .ok slots ∧ 0 < p ∧
      ∀ n, ∃ m, answer (d.evidenceProbability slots) n = (.ok p, m) := by
  obtain ⟨slots, made, disclosed, -⟩ := possible.slotsOf h
  exact ⟨slots, d.joint slots.world, made, Factor.weight_pos (possible.positive slots made),
    evidenceProbability_of_disclosed h (h.admits_of_slotsOf made) disclosed⟩

/-- What can be observed without being refused as impossible: it is worth what the utility table says, and
along other orders too, unless an order is refused as such; no query about it fails for want of
probability. -/
structure Evaluable (d : Diagram Rat) (observations : Assignment) : Prop where
  solve : ∀ n, ∃ s m, answer (d.solve observations) n = (.ok s, m) ∧
    d.utilityAt observations = .ok s.expectedUtility
  optimize : ∀ order n, Refused (answer (d.optimize order observations) n).1 ∨
    ∃ s m, answer (d.optimize order observations) n = (.ok s, m) ∧
      d.utilityAt observations = .ok s.expectedUtility
  query : ∀ name order n, (answer (d.query name observations order) n).1 ≠ .error .zeroEvidence

/-- A query about an observed variable finds it observed. -/
theorem query_of_certain (h : d.WellFormed) {observations : Assignment} {evidence : Slots}
    (valid : d.slotsOf observations = .ok evidence) (certain : d.Certain evidence) (name : String)
    (order : Option EliminationOrder) (n : Nat) :
    (answer (d.query name observations order) n).1 ≠ .error .zeroEvidence := by
  unfold query
  rcases found : d.lookup name with e | v
  · rw [answer_bind, answer_ofModel_error]
    exact fun zero => nomatch zero
  · have hv := (h.lookup_eq_ok.1 found).1
    obtain ⟨p, held⟩ := Slots.isAssigned_iff.1 (certain v hv)
    rw [answer_bind_of_ok (answer_ofModel_ok v n)]
    split_ifs with decision
    · exact fun zero => nomatch zero
    · rw [valid, answer_bind_of_ok (answer_ofModel_ok evidence n)]
      simp only [held]
      exact fun zero => nomatch zero

/-- A possible state can be evaluated with every joint action. -/
theorem Possible.evaluable (h : d.WellFormed) (possible : d.Possible state)
    (action_of : d.Assigns .decision action) : d.Evaluable (Assignment.merge state action) := by
  obtain ⟨slots, made, certain⟩ := exists_slotsOf_merge h possible.assigns action_of
  refine ⟨solve_merge h possible action_of, fun order n => ?_, query_of_certain h made certain⟩
  exact (consistent_or_refused h order made n).symm.imp_right fun consistent =>
    optimize_merge h possible action_of made consistent n

/-- An oracle, whatever it was asked before, tells what a joint action is worth in a possible state. -/
theorem Possible.expectedUtility (h : d.WellFormed) (possible : d.Possible state)
    (action_of : d.Assigns .decision action) {made oracle : Oracle Rat}
    (made_of : Oracle.ofDiagram d = .ok made) (arises : made.Arises oracle) :
    ∃ value after, answer (Oracle.expectedUtility state action) oracle = (.ok value, after) ∧
      d.utilityAt (Assignment.merge state action) = .ok value := by
  have new := Oracle.new_of_ofDiagram made_of
  have covers : made.utilities.layout.Covers (Assignment.merge state action) :=
    (new.states.covers h possible.assigns).merge new.joined (new.actions.covers h action_of)
  have told := ((arises.faithful h new).expectedUtility h new state action).1 covers
  obtain ⟨s, -, -, paid⟩ := solve_merge h possible action_of 0
  rw [worth?_merge h possible action_of, paid] at told
  exact ⟨s.expectedUtility, _, Prod.ext (toOption_eq_some.1 told) rfl, paid⟩

/-! ## Draws -/

/-- A state as it is drawn. It has a value for each chance variable and for nothing else; the entry for the
value is positive in the row of the values of the parents; the state has a positive probability; and with any
joint action it can be evaluated, by the solver and by every oracle. -/
structure Sampled (d : Diagram Rat) (state : Assignment) : Prop where
  assigns : d.Assigns .chance state
  entries : ∀ v ∈ d.vars, v.kind = .chance → ∃ f value x, d.cpt? v.id = some f ∧
    state.get? v.name = some value ∧ f.conditionalAt state value = .ok x ∧ 0 < x
  probability : ∃ slots p, d.slotsOf state = .ok slots ∧ 0 < p ∧
    ∀ n, ∃ m, answer (d.evidenceProbability slots) n = (.ok p, m)
  evaluable : ∀ action, d.Assigns .decision action → d.Evaluable (Assignment.merge state action)
  valued : ∀ action, d.Assigns .decision action → ∀ made oracle : Oracle Rat,
    Oracle.ofDiagram d = .ok made → made.Arises oracle → ∃ value after,
      answer (Oracle.expectedUtility state action) oracle = (.ok value, after) ∧
        d.utilityAt (Assignment.merge state action) = .ok value

theorem Possible.sampled (h : d.WellFormed) (possible : d.Possible state) : d.Sampled state where
  assigns := possible.assigns
  entries _ hv chance := possible.conditionalAt h hv chance
  probability := possible.evidenceProbability h
  evaluable _ action_of := possible.evaluable h action_of
  valued _ action_of _ _ made_of arises := possible.expectedUtility h action_of made_of arises

end Diagram

namespace DiagramEnvironment

variable {γ : Type} [RandomSource γ] {d : Diagram Rat}

/-- However often the environment of a diagram that could be built is reset, whatever its seed and whatever is
drawn, each reset succeeds with a state that is possible, value by value and as a whole. -/
theorem sampled_of_resets {decl : Declaration Rat} (built : decl.build = .ok d)
    {environment : DiagramEnvironment Rat γ} (on : environment.diagram = d) (n : Nat) :
    ∃ states after, answer (reset.times n) environment = (.ok states, after) ∧ states.length = n ∧
      ∀ state ∈ states, d.Sampled state := by
  have h := Declaration.wellFormed_of_build built
  have likely := Diagram.likely_of_build built
  have once : Step.Yields (fun env : DiagramEnvironment Rat γ => env.diagram = d) reset
      fun state env => env.diagram = d ∧ d.Sampled state :=
    (reset_yields h likely).imp (fun _ on => on) fun _ _ met => ⟨met.diagram, met.possible.sampled h⟩
  have always : Step.Yields (fun env : DiagramEnvironment Rat γ => env.diagram = d) (reset.times n)
      fun states env => env.diagram = d ∧ states.length = n ∧ ∀ state ∈ states, d.Sampled state :=
    Step.Yields.times (fun _ => once) n 0
  obtain ⟨states, after, ran, -, count, sampled⟩ := always environment on
  exact ⟨states, after, ran, count, sampled⟩

/-- A source that always draws the largest fraction. -/
inductive Brink where
  | brink

instance : RandomSource Brink where
  ofSeed _ := .brink
  unit source := (unitSteps - 1, source)
  below _ source := (0, source)
  word source := (0, source)
  unit_lt _ := Nat.sub_lt (by decide) Nat.one_pos
  below_lt _ _ h := h

/-- Whether to take a coat. The weather is as good as certain to be dry or wet, and the probabilities fall short
of one by a little. -/
def showers : Declaration Rat where
  vars := [⟨"Weather", .chance, [.text "dry", .text "wet", .text "hail"], []⟩,
    ⟨"Puddles", .chance, Value.boolean, ["Weather"]⟩,
    ⟨"Coat", .decision, Value.boolean, ["Weather"]⟩]
  cpts := [⟨"Weather", [], [1/2, 1/2 - 1/1000000000, 0]⟩,
    ⟨"Puddles", ["Weather"], [1, 0, 1/4, 3/4, 1/2, 1/2]⟩]
  utilities := [⟨["Puddles", "Coat"], [5, 4, 1, 3]⟩]

def showersDiagram : Diagram Rat := showers.build.toOption.get (by decide +kernel)

theorem build_showers : showers.build = .ok showersDiagram := eq_ok_get _

/-- A wet day with puddles. -/
def wetWeather : Assignment := NameMap.ofList [("Weather", .text "wet"), ("Puddles", .bool true)]

/-- A draw past the end of the first row selects the wet weather, not the hail. -/
theorem sampled_of_showers : ∃ after,
    answer (reset.times 2) (.ofDiagram showersDiagram 7 : DiagramEnvironment Rat Brink) =
      (.ok [wetWeather, wetWeather], after) ∧ showersDiagram.Sampled wetWeather := by
  have on : (.ofDiagram showersDiagram 7 : DiagramEnvironment Rat Brink).diagram = showersDiagram := rfl
  obtain ⟨states, after, ran, -, sampled⟩ := sampled_of_resets build_showers on 2
  have drawn : (answer (reset.times 2) (.ofDiagram showersDiagram 7 :
      DiagramEnvironment Rat Brink)).1.toOption = some [wetWeather, wetWeather] := by decide +kernel
  rw [ran] at drawn
  cases drawn
  exact ⟨after, ran, sampled _ List.mem_cons_self⟩

end DiagramEnvironment

end Counsel
