/-
Choices worked out with no memo. A decision rule picks the position that the maximum over its decision
is attained at (`pick`), which depends on nothing but its inputs and is in the domain; choosing with a
memo picks the same (`choose_spec`). So do the table of a rule (`rows_spec`), each row of which is
what its inputs are answered with (`choiceFor_of_mem_table`), and the decisions taken in turn
(`choices_spec`). Where the rules of a solution come from is a pool of factors (`rules_over_pool`).
-/
import Counsel.Proofs.Diagram.Build
import Counsel.Proofs.Factor.Pool
import Counsel.Proofs.Inference.Sweep
import Counsel.Proofs.Layout

namespace Counsel

open Outcome Evaluate

/-! ## Named positions -/

namespace Scope

variable {scope : Scope} {index : Nat} {inputs : Assignment}

/-- A variable finds its value as a place with its name and its domain does. -/
theorem namedPosition_of_position {v : Variable} {p : Nat}
    (h : Layout.position inputs (v.name, v.domain) = .ok p) : namedPosition inputs v = .ok p := by
  obtain ⟨value, known, found⟩ := Layout.position_eq_ok.1 h
  rw [namedPosition, known]
  simp only [Variable.position?, found]

/-- The assignment of an index gives the variables of the scope the positions of the index. -/
theorem slotsOf_assignmentAt (named : (scope.vars.map (·.name)).Nodup)
    (distinct : ∀ v ∈ scope.vars, v.domain.Nodup) (lt : index < scope.size)
    (made : scope.assignmentAt index = .ok inputs) :
    slotsOf scope.vars inputs = .ok (Slots.empty.setAll (scope.entriesAt index)) := by
  let places : List Place := scope.vars.map fun v => (v.name, v.domain)
  let digits := MixedRadix.decode (bases scope.vars) index
  have positions := positions_forall₂ lt
  have inRange : MixedRadix.InRange (Layout.bases places) digits := by
    have e : Layout.bases places = bases scope.vars := List.map_map
    exact e ▸ Scope.inRange_bases.2 positions
  have names : ((Layout.entriesOf places digits).map (·.1)).Nodup := by
    rw [Layout.names_entriesOf inRange]
    simpa [places, List.map_map, Function.comp_def] using named
  have entries : inputs = NameMap.ofList (Layout.entriesOf places digits) := by
    rw [assignmentAt, positionsAt, if_pos lt] at made
    cases made
    simp only [Layout.entriesOf, places, digits, List.zip_map_left, List.filterMap_map]
    rfl
  have read : List.Forall₂ (fun v p => namedPosition inputs v = .ok p) scope.vars digits := by
    have held := Layout.entriesOf_forall₂ inRange
    rw [List.forall₂_map_left_iff] at held
    rw [List.forall₂_iff_get] at held ⊢
    refine ⟨held.1, fun i hi hd => ?_⟩
    obtain ⟨value, there, mem⟩ := held.2 i hi hd
    exact namedPosition_of_position (Layout.position_of_getElem? (distinct _ (List.get_mem _ _))
      (entries ▸ NameMap.get?_ofList names mem) there)
  rw [slotsOf, mapM_eq_ok.2 read]
  rfl

theorem namedPosition_eq_ok {v : Variable} {p : Nat} : namedPosition inputs v = .ok p ↔
    ∃ value, inputs.get? v.name = some value ∧ v.position? value = some p := by
  unfold namedPosition
  rcases inputs.get? v.name with _ | value
  · simp
  · rcases found : v.position? value with _ | q <;> simp [found]

theorem namedPosition_lt {v : Variable} {p : Nat} (h : namedPosition inputs v = .ok p) :
    p < v.card := by
  obtain ⟨value, -, found⟩ := namedPosition_eq_ok.1 h
  exact (List.findIdx?_eq_some_iff_getElem.1 found).1

/-- The positions of named values are in their domains. -/
theorem within_slotsOf {vars some_vars : List Variable}
    (inj : ∀ u ∈ vars, ∀ v ∈ vars, u.id = v.id → u = v) (sub : ∀ v ∈ some_vars, v ∈ vars)
    {slots : Slots} (h : slotsOf some_vars inputs = .ok slots) : slots.Within vars := by
  obtain ⟨positions, hp, e⟩ := bind_eq_ok.1 h
  cases e
  have empty : Slots.empty.Within vars := Factor.within_empty
  refine empty.setAll inj fun x hx => ?_
  rw [List.zip_map_left] at hx
  obtain ⟨⟨v, p⟩, hvp, rfl⟩ := List.mem_map.1 hx
  have named := (List.forall₂_iff_zip.1 (mapM_eq_ok.1 hp)).2 hvp
  exact ⟨v, sub v (List.of_mem_zip hvp).1, rfl, namedPosition_lt named⟩

end Scope

/-! ## What a rule picks -/

namespace DecisionRule

variable {α : Type} [Scalar α]

/-- The position of the best choice under some positions, with no memo. -/
def pick (rule : DecisionRule α) (slots : Slots) : Except ModelError Nat :=
  match rule.factor with
  | some f => do return (← f.argmax slots).getD 0
  | none => return 0

/-- The value at a position of the decision. -/
def valueOf (rule : DecisionRule α) (position : Nat) : Except ModelError Value :=
  match rule.decision.domain[position]? with
  | some value => .ok value
  | none => .error (.indexOutOfRange position rule.decision.card)

/-- The best choice given named inputs, with no memo. -/
def choiceFor (rule : DecisionRule α) (inputs : Assignment) : Except ModelError Value := do
  let slots ← Scope.slotsOf rule.inputs inputs
  rule.valueOf (← rule.pick slots)

/-- A row of the rule: the choice under some positions, beside the inputs of an index. -/
def rowAt (rule : DecisionRule α) (scope : Scope) (index : Nat) (slots : Slots) :
    Except ModelError (Assignment × Value) := do
  let value ← rule.valueOf (← rule.pick slots)
  return (← scope.assignmentAt index, value)

/-- The whole rule, each row with no memo. -/
def table (rule : DecisionRule α) : Except ModelError (List (Assignment × Value)) :=
  match rule.factor with
  | none => do return [(NameMap.empty, ← rule.valueOf 0)]
  | some f => (List.range f.scope.size).mapM fun index =>
    f.scope.fillSlots index Slots.empty >>= rule.rowAt f.scope index

/-- A rule for one of some variables, read off a maximum over it among some factors. -/
structure Over (vars : List Variable) (pool : List (Factor α)) (rule : DecisionRule α) : Prop where
  decision : rule.decision ∈ vars
  member : ∀ f ∈ rule.factor, f ∈ pool
  maximum : ∀ f ∈ rule.factor, ∃ head base, f = .max head rule.decision base

variable {vars : List Variable} {nodes : Factor α → Prop} {pool : List (Factor α)}
  {rule : DecisionRule α}

omit [Scalar α] in
theorem inputs_of_factor {f : Factor α} (h : rule.factor = some f) : rule.inputs = f.scope.vars := by
  rw [inputs, h]
  rfl

omit [Scalar α] in
/-- The inputs of a rule are variables. -/
theorem Over.inputs_sub (proper : rule.Over vars pool)
    (graph : Factor.Graph vars (· ∈ pool)) : ∀ v ∈ rule.inputs, v ∈ vars := by
  intro v hv
  cases hf : rule.factor with
  | none => rw [DecisionRule.inputs, hf] at hv; cases hv
  | some f =>
    rw [DecisionRule.inputs_of_factor hf] at hv
    exact (graph.built f (proper.member f hf)).mem_vars v hv

omit [Scalar α] in
theorem inputs_nodup (rule : DecisionRule α) : rule.inputs.Nodup := by
  unfold inputs
  cases rule.factor with
  | none => exact List.nodup_nil
  | some f => exact f.scope.nodup_vars

/-- A rule reads nothing but its inputs. -/
theorem pick_congr (built : ∀ f ∈ rule.factor, Factor.Built vars f) {s t : Slots}
    (agree : s.AgreeOn (rule.inputs.map (·.id)) t) : rule.pick s = rule.pick t := by
  unfold pick
  cases hf : rule.factor with
  | none => rfl
  | some f =>
    rw [inputs_of_factor hf] at agree
    simp only
    rw [Factor.argmax_congr (built f hf) agree]

/-- What a rule picks is a position of its decision. -/
theorem pick_lt (proper : rule.Over vars pool) (pos : 0 < rule.decision.card) {slots : Slots}
    {p : Nat} (h : rule.pick slots = .ok p) : p < rule.decision.card := by
  unfold pick at h
  cases hf : rule.factor with
  | none =>
    rw [hf] at h
    cases h
    exact pos
  | some f =>
    obtain ⟨head, base, rfl⟩ := proper.maximum f hf
    rw [hf] at h
    obtain ⟨best, ha, e⟩ := bind_eq_ok.1 h
    cases e
    rw [Factor.argmax, Factor.cell] at ha
    cases hi : head.scope.indexOfSlots slots with
    | error err => rw [hi] at ha; cases ha
    | ok index =>
      rw [hi, ok_bind] at ha
      rcases loop : (List.range rule.decision.card).foldlM (fun best position => do
          let c ← base.cell (slots.set rule.decision.id (some position))
          return Factor.betterCell best c.1 position) none with err | cell
      · rw [loop] at ha
        cases ha
      · rw [loop] at ha
        cases ha
        -- the best cell so far is at a position that was tried
        have tried : ∀ c ∈ cell, c.2 < rule.decision.card := by
          refine foldlM_keeps (fun best : Option (α × Nat) => ∀ c ∈ best, c.2 < rule.decision.card)
            (fun best p hp next kept step => ?_) (by simp) loop
          obtain ⟨c, -, e⟩ := bind_eq_ok.1 step
          cases e
          exact Factor.betterCell_keeps (· < rule.decision.card) kept (List.mem_range.1 hp)
        cases cell with
        | none => exact pos
        | some c => exact tried c rfl

/-! ## Choosing with a memo -/

/-- Choosing with a memo picks what is picked with none. -/
theorem choose_spec (graph : Factor.Graph vars nodes) (members : ∀ f ∈ rule.factor, nodes f) :
    Computes vars nodes rule.choose rule.pick := by
  obtain ⟨decision, factor⟩ := rule
  cases factor with
  | none => exact Computes.pure 0
  | some f =>
    exact (Factor.memoArgmax_spec graph (members f rfl)).bind (fun best => Computes.pure (best.getD 0))
      fun _ _ _ _ => rfl

theorem valueAt_spec (rule : DecisionRule α) (position : Nat) :
    Computes vars nodes (rule.valueAt position) fun _ => rule.valueOf position := by
  intro e _ sound
  refine ⟨e, ?_, .refl _, sound⟩
  unfold valueAt valueOf
  cases rule.decision.domain[position]? <;> rfl

theorem choice_spec (graph : Factor.Graph vars nodes) (members : ∀ f ∈ rule.factor, nodes f) :
    Computes vars nodes (do rule.valueAt (← rule.choose)) fun s => rule.pick s >>= rule.valueOf :=
  (choose_spec graph members).bind rule.valueAt_spec fun _ _ _ _ => rfl

/-- The step that works out the whole rule. -/
def tabulate (rule : DecisionRule α) : Evaluate α (List (Assignment × Value)) := do
  match rule.factor with
  | none => return [(NameMap.empty, ← rule.valueAt 0)]
  | some f =>
    (List.range f.scope.size).mapM fun index => do
      Factor.fill f.scope index
      let value ← rule.valueAt (← rule.choose)
      match f.scope.assignmentAt index with
      | .ok inputs => return (inputs, value)
      | .error e => throw e

theorem tabulate_spec (graph : Factor.Graph vars nodes) (members : ∀ f ∈ rule.factor, nodes f) :
    Answers vars nodes rule.tabulate fun _ => rule.table := by
  obtain ⟨decision, factor⟩ := rule
  cases factor with
  | none =>
    exact ((valueAt_spec _ 0).bind (fun value => Computes.pure [(NameMap.empty, value)])
      fun _ _ _ _ => rfl).answers
  | some f =>
    have hf : nodes f := members f rfl
    have closing : ∀ (index : Nat) (value : Value), Computes vars nodes
        (match f.scope.assignmentAt index with
        | .ok inputs => return (inputs, value)
        | .error e => throw e)
        fun _ => f.scope.assignmentAt index >>= fun inputs => pure (inputs, value) := by
      intro index value e _ sound
      refine ⟨e, ?_, .refl _, sound⟩
      cases f.scope.assignmentAt index <;> rfl
    have row := fun index => (choose_spec graph members).bind
      (fun position => (valueAt_spec ⟨decision, some f⟩ position).bind (closing index) fun _ _ _ _ => rfl)
      fun _ _ _ _ => rfl
    exact answers_filled graph.inj (graph.built f hf).mem_vars row
      (fun index s t agree => by
        simp only [pick_congr (fun g hg => graph.built g (members g hg)) agree])
      (List.range f.scope.size)

/-- Each row of a rule is what its inputs are answered with. -/
theorem choiceFor_of_mem_table (named : (rule.inputs.map (·.name)).Nodup)
    (distinct : ∀ v ∈ rule.inputs, v.domain.Nodup) {rows : List (Assignment × Value)}
    (h : rule.table = .ok rows) {row : Assignment × Value} (hr : row ∈ rows) :
    rule.choiceFor row.1 = .ok row.2 := by
  unfold table at h
  cases hf : rule.factor with
  | none =>
    rw [hf] at h
    obtain ⟨value, hv, e⟩ := bind_eq_ok.1 h
    cases e
    rw [List.mem_singleton.1 hr, choiceFor, inputs, hf]
    have picked : ∀ slots, rule.pick slots = .ok 0 := fun slots => by
      rw [pick, hf]
      rfl
    show rule.pick _ >>= rule.valueOf = _
    rw [picked, ok_bind, hv]
  | some f =>
    rw [inputs_of_factor hf] at named distinct
    rw [hf] at h
    obtain ⟨index, hi, made⟩ := forall₂_right_mem (mapM_eq_ok.1 h) hr
    have lt : index < f.scope.size := List.mem_range.1 hi
    rw [Scope.fillSlots_of_lt lt, ok_bind, rowAt, bind_eq_ok] at made
    obtain ⟨p, hp, made⟩ := made
    obtain ⟨value, hv, made⟩ := bind_eq_ok.1 made
    obtain ⟨assignment, ha, made⟩ := bind_eq_ok.1 made
    cases made
    rw [choiceFor, inputs_of_factor hf, Scope.slotsOf_assignmentAt named distinct lt ha, ok_bind, hp,
      ok_bind, hv]

end DecisionRule

/-! ## Decisions in turn -/

namespace Solution

variable {α : Type} [Scalar α] {vars : List Variable} {nodes : Factor α → Prop}
  {pool : List (Factor α)}

/-- The decisions taken in turn, each with no memo. -/
def plays : List (DecisionRule α) → Slots → Except ModelError (List (VarId × Nat))
  | [], _ => return []
  | rule :: rest, slots => do
    let position ← rule.pick slots
    return (rule.decision.id, position) ::
      (← plays rest (slots.set rule.decision.id (some position)))

theorem plays_same {rules : List (DecisionRule α)}
    (built : ∀ rule ∈ rules, ∀ f ∈ rule.factor, Factor.Built vars f) {s t : Slots} (same : s.Same t) :
    plays rules s = plays rules t := by
  induction rules generalizing s t with
  | nil => rfl
  | cons rule rest ih =>
    rw [plays, plays, rule.pick_congr (built rule List.mem_cons_self) (same.agreeOn _)]
    refine congrArg _ (funext fun position => ?_)
    rw [ih (fun r hr => built r (List.mem_cons_of_mem _ hr)) (same.set _ _)]

/-- Acting with a memo takes the decisions that are taken with none. -/
theorem choices_spec (graph : Factor.Graph vars (· ∈ pool)) (pos : ∀ v ∈ vars, 0 < v.card)
    {rules : List (DecisionRule α)} (proper : ∀ rule ∈ rules, rule.Over vars pool) :
    Answers vars (· ∈ pool) (choices rules) (plays rules) := by
  induction rules with
  | nil => exact fun e within sound => ⟨e, rfl, within, sound⟩
  | cons rule rest ih =>
    intro e within sound
    have head := proper rule List.mem_cons_self
    have hrest : ∀ r ∈ rest, r.Over vars pool := fun r hr => proper r (List.mem_cons_of_mem _ hr)
    obtain ⟨mid, hm, same, sound'⟩ := rule.choose_spec graph head.member e within sound
    rw [choices, plays]
    cases hp : rule.pick e.slots with
    | error err =>
      rw [hp] at hm
      exact ⟨mid, answer_bind_of_error hm _, same.symm.within within, sound'⟩
    | ok position =>
      rw [hp] at hm
      have lt := rule.pick_lt head (pos _ head.decision) hp
      obtain ⟨after, ha, within', sound''⟩ := ih hrest
        { mid with slots := mid.slots.set rule.decision.id (some position) }
        ((same.symm.within within).set graph.inj head.decision lt) sound'
      refine ⟨after, ?_, within', sound''⟩
      rw [plays_same (fun r hr f hf => graph.built f ((hrest r hr).member f hf))
        (same.set rule.decision.id (some position))] at ha
      rw [answer_bind_of_ok hm, answer_bind_of_ok (answer_assign _ _ mid), answer_bind, ha, ok_bind]
      cases plays rest (e.slots.set rule.decision.id (some position)) <;> rfl

end Solution

/-! ## The rules of a solution -/

namespace Diagram

variable {α : Type} [Scalar α] {d : Diagram α}

/-- Every rule kept so far is read off a maximum over its decision. -/
def Maximal (state : Elimination α) : Prop :=
  ∀ rule ∈ state.rules, ∀ f ∈ rule.factor, ∃ head base, f = .max head rule.decision base

omit [Scalar α] in
theorem maximal_sweepOne {before after : Elimination α} {v : Variable} {n m : Nat}
    (maximal : Maximal before) (run : answer (sweepOne before v) n = (.ok after, m)) :
    Maximal after := by
  unfold sweepOne at run
  split at run
  next =>
    rcases maximise_cases run with ⟨-, -, rfl⟩ | ⟨-, base, best, -, -, made, rfl⟩
    · intro rule hr f hf
      rcases List.mem_append.1 hr with hr | hr
      · exact maximal rule hr f hf
      · cases List.mem_singleton.1 hr
        cases hf
    · intro rule hr f hf
      rcases List.mem_append.1 hr with hr | hr
      · exact maximal rule hr f hf
      · cases List.mem_singleton.1 hr
        cases hf
        obtain ⟨scope, -, rfl⟩ := Factor.maxOut_eq_ok.1 made
        exact ⟨_, base, rfl⟩
  next =>
    obtain ⟨gs, l, -, made⟩ := answer_bind_ok.1 run
    cases made
    exact maximal

omit [Scalar α] in
theorem maximal_sweep {vars : List Variable} {before after : Elimination α} {n m : Nat}
    (maximal : Maximal before) (run : answer (vars.foldlM sweepOne before) n = (.ok after, m)) :
    Maximal after := by
  induction vars generalizing before n with
  | nil =>
    cases run
    exact maximal
  | cons v rest ih =>
    rw [List.foldlM_cons, answer_bind_ok] at run
    obtain ⟨mid, k, first, run⟩ := run
    exact ih (maximal_sweepOne maximal first) run

/-- The rules of a solution are read off the factors of a pool. -/
theorem rules_over_pool {decl : Declaration α} (built : decl.build = .ok d)
    {order : EliminationOrder} {observations : Assignment} {n m : Nat} {s : Solution α}
    (solved : answer (d.optimize order observations) n = (.ok s, m)) :
    ∃ pool, Factor.Pool d.vars pool ∧ ∀ rule ∈ s.rules, rule.Over d.vars pool := by
  have h := Declaration.wellFormed_of_build built
  obtain ⟨evidence, k, read, -⟩ := answer_bind_ok.1 solved
  obtain ⟨valid, -⟩ := answer_ofModel_eq_ok.1 read
  obtain ⟨-, gs, k, nodes, state, l, -, stage, -, run, concluded⟩ :=
    sweep_of_accepted h valid (.inl ⟨s, by rw [solved]⟩)
  obtain ⟨nodes', swept, -⟩ := stage_sweep (sweepOf_sub h) stage run
  have maximal : Maximal state := maximal_sweep (fun _ hr => absurd hr List.not_mem_nil) run
  obtain ⟨made, kept, decisions, members⟩ := swept.rules
  rw [List.nil_append] at kept
  rw [concluded] at solved
  obtain ⟨u, j, -, concluded⟩ := answer_bind_ok.1 solved
  cases concluded
  have backing : ∀ f ∈ made.filterMap (·.factor), nodes' f := by
    intro f hf
    obtain ⟨rule, hr, e⟩ := List.mem_filterMap.1 hf
    exact members rule hr f e
  obtain ⟨pool, grown, inside⟩ := swept.exists_pool backing
  refine ⟨pool, grown, fun rule hr => ?_⟩
  obtain ⟨id, -, found⟩ := List.mem_filterMap.1 hr
  have hr : rule ∈ made := kept ▸ List.mem_of_find?_eq_some found
  refine ⟨?_, fun f hf => inside f (List.mem_filterMap.2 ⟨rule, hr, hf⟩), maximal rule (kept ▸ hr)⟩
  have turn : rule.decision ∈ made.map (·.decision) := List.mem_map_of_mem hr
  rw [decisions] at turn
  exact sweepOf_sub h _ (List.mem_of_mem_filter turn)

end Diagram

end Counsel
