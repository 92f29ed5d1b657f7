/-
Sessions: calls of every kind on shared factors and on rules read off them, one after the other with
one memo (`history`). Whatever was asked before, a call replies as it does with no memo, and the
positions of a value or a maximiser are left as they were (`run_spec`, `history_spec`); so a rule
chooses alike wherever it reads alike, in the order of one session as of another
(`replies_of_session`).
-/
import Counsel.Proofs.Inference.Choice
import Counsel.Proofs.Inference.Posterior

namespace Counsel

open Outcome Evaluate

/-- A call on factors or on rules. -/
inductive Call (α : Type) where
  | value (f : Factor α) (slots : Slots)
  | argmax (f : Factor α) (slots : Slots)
  | materialize (f : Factor α)
  | choose (rule : DecisionRule α) (inputs : Assignment)
  | tabulate (rule : DecisionRule α)
  | act (solution : Solution α) (slots : Slots)

/-- What a call gives. -/
inductive Reply (α : Type) where
  | value (x : α)
  | best (position : Option Nat)
  | cells (xs : List α)
  | choice (value : Value)
  | table (rows : List (Assignment × Value))
  | decisions (taken : List (VarId × Nat))

/-- A choice that a rule made, and the positions at that time. -/
structure Choice (α : Type) where
  rule : DecisionRule α
  seen : Slots
  value : Option Value

variable {α : Type} [Scalar α] {vars : List Variable} {pool : List (Factor α)}

/-- A choice is a value of the decision, at what the rule picks with no memo. -/
def Choice.Picked (c : Choice α) : Prop :=
  ∃ p, c.rule.pick c.seen = .ok p ∧ p < c.rule.decision.card ∧ c.value = c.rule.decision.domain[p]?

/-- Choices of one rule that reads alike are alike. -/
theorem Choice.Picked.agree {c c' : Choice α} (h : c.Picked) (h' : c'.Picked)
    (built : ∀ f ∈ c.rule.factor, Factor.Built vars f) (same : c.rule = c'.rule)
    (alike : c.seen.AgreeOn (c.rule.inputs.map (·.id)) c'.seen) :
    c.value = c'.value ∧ c.value.isSome := by
  obtain ⟨p, hp, lt, held⟩ := h
  obtain ⟨p', hp', -, held'⟩ := h'
  rw [← same, ← c.rule.pick_congr built alike, hp] at hp'
  cases hp'
  rw [held, held', same]
  exact ⟨rfl, by simpa [Variable.card, ← same] using lt⟩

namespace Call

/-- The positions that a call starts from. -/
def start : Call α → Except ModelError Slots
  | .value _ slots | .argmax _ slots | .act _ slots => .ok slots
  | .materialize _ | .tabulate _ => .ok Slots.empty
  | .choose rule inputs => Scope.slotsOf rule.inputs inputs

/-- What a call does with a memo. -/
def step : Call α → Evaluate α (Reply α)
  | .value f _ => .value <$> f.memoValue
  | .argmax f _ => .best <$> f.memoArgmax
  | .materialize f => .cells <$> f.materialize
  | .choose rule _ => .choice <$> (do rule.valueAt (← rule.choose))
  | .tabulate rule => .table <$> rule.tabulate
  | .act solution _ => .decisions <$> Solution.choices solution.rules

/-- A call with the memo of the calls before. -/
def run (call : Call α) (memo : Memo α) : Except ModelError (Reply α) × Evaluation α :=
  match call.start with
  | .error e => (.error e, ⟨Slots.empty, memo⟩)
  | .ok slots => answer call.step ⟨slots, memo⟩

/-- A call as it is answered with an empty memo. -/
def alone : Call α → Except ModelError (Reply α)
  | .value f slots => (answerFrom slots f.memoValue).map .value
  | .argmax f slots => (answerFrom slots f.memoArgmax).map .best
  | .materialize f => (answerFrom Slots.empty f.materialize).map .cells
  | .choose rule inputs => (rule.chooseFor inputs).map .choice
  | .tabulate rule => rule.rows.map .table
  | .act solution slots => (solution.act slots).map .decisions

/-- A call as it is answered by the recursion over factors, with no memo at all. -/
def plain : Call α → Except ModelError (Reply α)
  | .value f slots => (f.value slots).map .value
  | .argmax f slots => (f.argmax slots).map .best
  | .materialize f => f.cells.map .cells
  | .choose rule inputs => (rule.choiceFor inputs).map .choice
  | .tabulate rule => rule.table.map .table
  | .act solution slots => (Solution.plays solution.rules slots).map .decisions

/-- Calls on the factors of a pool and on rules read off them, under positions in their domains. -/
def Over (vars : List Variable) (pool : List (Factor α)) : Call α → Prop
  | .value f slots | .argmax f slots => f ∈ pool ∧ slots.Within vars
  | .materialize f => f ∈ pool
  | .choose rule _ | .tabulate rule => rule.Over vars pool
  | .act solution slots => (∀ rule ∈ solution.rules, rule.Over vars pool) ∧ slots.Within vars

/-- A value and a maximiser are to leave the positions that they were given. -/
def Restores : Call α → Slots → Prop
  | .value _ slots, after | .argmax _ slots, after => after.Same slots
  | _, _ => True

/-- A reply is the one with no memo and the one with an empty memo, and positions are given back. -/
def Faithful (call : Call α) (reply : Except ModelError (Reply α) × Slots) : Prop :=
  reply.1 = call.plain ∧ reply.1 = call.alone ∧ call.Restores reply.2

/-- The choices of rules taken in turn. -/
def turns : List (DecisionRule α) → List (VarId × Nat) → Slots → List (Choice α)
  | rule :: rest, (id, position) :: taken, slots =>
    ⟨rule, slots, rule.decision.domain[position]?⟩ :: turns rest taken (slots.set id (some position))
  | _, _, _ => []

/-- The choice of a rule for named inputs. -/
def named (rule : DecisionRule α) (inputs : Assignment) (chosen : Value) : Choice α :=
  ⟨rule, (Scope.slotsOf rule.inputs inputs).toOption.getD Slots.empty, some chosen⟩

/-- The choices that the reply to a call shows. -/
def choices : Call α → Except ModelError (Reply α) → List (Choice α)
  | .choose rule inputs, .ok (.choice chosen) => [named rule inputs chosen]
  | .tabulate rule, .ok (.table rows) => rows.map fun row => named rule row.1 row.2
  | .act solution slots, .ok (.decisions taken) => turns solution.rules taken slots
  | _, _ => []

/-! ## One call -/

theorem run_choose (rule : DecisionRule α) (inputs : Assignment) (memo : Memo α) :
    run (.choose rule inputs) memo = match Scope.slotsOf rule.inputs inputs with
      | .error e => (.error e, ⟨Slots.empty, memo⟩)
      | .ok slots => answer (.choice <$> (do rule.valueAt (← rule.choose))) ⟨slots, memo⟩ := rfl

theorem alone_eq_run (call : Call α) : call.alone = (call.run Memo.empty).1 := by
  cases call with
  | choose rule inputs =>
    rw [run_choose, alone, DecisionRule.chooseFor]
    cases Scope.slotsOf rule.inputs inputs with
    | error e => rfl
    | ok slots => exact (congrArg Prod.fst (answer_map _ _ _)).symm
  | _ => exact (congrArg Prod.fst (answer_map _ _ _)).symm

/-- A call replies as it does with no memo, leaves the memo sound, and gives positions back. -/
theorem run_spec (graph : Factor.Graph vars (· ∈ pool)) (pos : ∀ v ∈ vars, 0 < v.card)
    {call : Call α} (proper : call.Over vars pool) {memo : Memo α}
    (sound : memo.Sound vars (· ∈ pool)) :
    (call.run memo).1 = call.plain ∧ call.Restores (call.run memo).2.slots ∧
      (call.run memo).2.memo.Sound vars (· ∈ pool) := by
  cases call with
  | value f slots =>
    obtain ⟨after, ha, same, sound'⟩ :=
      Factor.memoValue_spec graph proper.1 ⟨slots, memo⟩ proper.2 sound
    have ran : run (.value f slots) memo = _ := answer_map _ _ _
    rw [ran, ha]
    exact ⟨rfl, same, sound'⟩
  | argmax f slots =>
    obtain ⟨after, ha, same, sound'⟩ :=
      Factor.memoArgmax_spec graph proper.1 ⟨slots, memo⟩ proper.2 sound
    have ran : run (.argmax f slots) memo = _ := answer_map _ _ _
    rw [ran, ha]
    exact ⟨rfl, same, sound'⟩
  | materialize f =>
    obtain ⟨after, ha, -, sound'⟩ :=
      Factor.materialize_spec graph proper ⟨Slots.empty, memo⟩ Factor.within_empty sound
    have ran : run (.materialize f) memo = _ := answer_map _ _ _
    rw [ran, ha]
    exact ⟨rfl, trivial, sound'⟩
  | choose rule inputs =>
    -- the inputs are turned into positions before the memo is looked at
    rw [run_choose, plain, DecisionRule.choiceFor]
    cases hs : Scope.slotsOf rule.inputs inputs with
    | error e => exact ⟨rfl, trivial, sound⟩
    | ok slots =>
      have within := Scope.within_slotsOf graph.inj (proper.inputs_sub graph) hs
      obtain ⟨after, ha, -, sound'⟩ :=
        rule.choice_spec graph proper.member ⟨slots, memo⟩ within sound
      simp only
      rw [answer_map, ha]
      exact ⟨rfl, trivial, sound'⟩
  | tabulate rule =>
    obtain ⟨after, ha, -, sound'⟩ :=
      rule.tabulate_spec graph proper.member ⟨Slots.empty, memo⟩ Factor.within_empty sound
    have ran : run (.tabulate rule) memo = _ := answer_map _ _ _
    rw [ran, ha]
    exact ⟨rfl, trivial, sound'⟩
  | act solution slots =>
    obtain ⟨after, ha, -, sound'⟩ :=
      Solution.choices_spec graph pos proper.1 ⟨slots, memo⟩ proper.2 sound
    have ran : run (.act solution slots) memo = _ := answer_map _ _ _
    rw [ran, ha]
    exact ⟨rfl, trivial, sound'⟩

/-! ## Sessions -/

/-- The replies to some calls in turn, the memo kept throughout, each with the positions after it. -/
def history : List (Call α) → Memo α → List (Except ModelError (Reply α) × Slots)
  | [], _ => []
  | call :: rest, memo =>
    ((call.run memo).1, (call.run memo).2.slots) :: history rest (call.run memo).2.memo

theorem history_spec (graph : Factor.Graph vars (· ∈ pool)) (pos : ∀ v ∈ vars, 0 < v.card)
    {calls : List (Call α)} (proper : ∀ call ∈ calls, call.Over vars pool) {memo : Memo α}
    (sound : memo.Sound vars (· ∈ pool)) :
    List.Forall₂ (fun call reply => reply.1 = call.plain ∧ call.Restores reply.2) calls
      (history calls memo) := by
  induction calls generalizing memo with
  | nil => exact .nil
  | cons call rest ih =>
    obtain ⟨same, restored, sound'⟩ := run_spec graph pos (proper call List.mem_cons_self) sound
    exact .cons ⟨same, restored⟩ (ih (fun c hc => proper c (List.mem_cons_of_mem _ hc)) sound')

theorem alone_eq_plain (graph : Factor.Graph vars (· ∈ pool)) (pos : ∀ v ∈ vars, 0 < v.card)
    {call : Call α} (proper : call.Over vars pool) : call.alone = call.plain :=
  call.alone_eq_run.trans (run_spec graph pos proper Memo.sound_empty).1

/-- The choices that a session shows. -/
def shown (calls : List (Call α)) : List (Choice α) :=
  (calls.zip (history calls Memo.empty)).flatMap fun (call, reply) => call.choices reply.1

/-! ## Choices -/

variable {call : Call α}

theorem picked_named {rule : DecisionRule α} {inputs : Assignment} {chosen : Value}
    (h : rule.choiceFor inputs = .ok chosen) : (named rule inputs chosen).Picked := by
  obtain ⟨slots, hs, h⟩ := bind_eq_ok.1 h
  obtain ⟨p, hp, h⟩ := bind_eq_ok.1 h
  unfold DecisionRule.valueOf at h
  split at h
  next value found =>
    cases h
    refine ⟨p, ?_, (List.getElem?_eq_some_iff.1 found).1, found.symm⟩
    rw [named, hs]
    exact hp
  next => cases h

theorem picked_turns (pos : ∀ v ∈ vars, 0 < v.card) {rules : List (DecisionRule α)}
    (proper : ∀ rule ∈ rules, rule.Over vars pool) {taken : List (VarId × Nat)} {slots : Slots}
    (h : Solution.plays rules slots = .ok taken) :
    ∀ c ∈ turns rules taken slots, c.Picked ∧ c.rule ∈ rules := by
  induction rules generalizing taken slots with
  | nil => exact fun c hc => absurd hc List.not_mem_nil
  | cons rule rest ih =>
    obtain ⟨p, hp, h⟩ := bind_eq_ok.1 h
    obtain ⟨later, hl, h⟩ := bind_eq_ok.1 h
    cases h
    have head := proper rule List.mem_cons_self
    rw [turns]
    refine List.forall_mem_cons.2 ⟨⟨⟨p, hp, ?_, rfl⟩, List.mem_cons_self⟩, fun c hc => ?_⟩
    · exact rule.pick_lt head (pos _ head.decision) hp
    · obtain ⟨picked, mem⟩ := ih (fun r hr => proper r (List.mem_cons_of_mem _ hr)) hl c hc
      exact ⟨picked, List.mem_cons_of_mem _ mem⟩

/-- The choices in a plain reply are what the rules pick with no memo. -/
theorem picked_plain {d : Diagram α} (h : d.WellFormed) (graph : Factor.Graph d.vars (· ∈ pool))
    (proper : call.Over d.vars pool) :
    ∀ c ∈ call.choices call.plain, c.Picked ∧ c.rule.Over d.vars pool := by
  cases call with
  | value f slots =>
    rw [plain]
    cases f.value slots <;> exact fun c hc => absurd hc List.not_mem_nil
  | argmax f slots =>
    rw [plain]
    cases f.argmax slots <;> exact fun c hc => absurd hc List.not_mem_nil
  | materialize f =>
    rw [plain]
    cases f.cells <;> exact fun c hc => absurd hc List.not_mem_nil
  | choose rule inputs =>
    rw [plain]
    cases answered : rule.choiceFor inputs with
    | error e => exact fun c hc => absurd hc List.not_mem_nil
    | ok chosen =>
      intro c hc
      cases List.mem_singleton.1 hc
      exact ⟨picked_named answered, proper⟩
  | tabulate rule =>
    rw [plain]
    cases ht : rule.table with
    | error e => exact fun c hc => absurd hc List.not_mem_nil
    | ok rows =>
      intro c hc
      obtain ⟨row, hr, rfl⟩ := List.mem_map.1 hc
      have sub := proper.inputs_sub graph
      exact ⟨picked_named (rule.choiceFor_of_mem_table (h.nodup_names rule.inputs_nodup sub)
        (fun v hv => (h.domains v (sub v hv)).2) ht hr), proper⟩
  | act solution slots =>
    rw [plain]
    cases ha : Solution.plays solution.rules slots with
    | error e => exact fun c hc => absurd hc List.not_mem_nil
    | ok taken =>
      intro c hc
      obtain ⟨picked, mem⟩ := picked_turns (fun v hv => h.card_pos hv) proper.1 ha c hc
      exact ⟨picked, proper.1 c.rule mem⟩

/-- A session in which every call replies as it does with no memo shows what the rules pick. -/
theorem picked_shown {d : Diagram α} (h : d.WellFormed) (graph : Factor.Graph d.vars (· ∈ pool))
    {calls : List (Call α)} (proper : ∀ call ∈ calls, call.Over d.vars pool) :
    ∀ c ∈ shown calls, c.Picked ∧ c.rule.Over d.vars pool := by
  intro c hc
  obtain ⟨⟨call, reply⟩, hz, hc⟩ := List.mem_flatMap.1 hc
  have replies := history_spec graph (fun v hv => h.card_pos hv) proper Memo.sound_empty
  have same := ((List.forall₂_iff_zip.1 replies).2 hz).1
  simp only at hc same
  rw [same] at hc
  exact picked_plain h graph (proper call (List.of_mem_zip hz).1) c hc

/-- Shared factors over the variables of a diagram that was built, and rules read off them, in a
session of calls with one memo: every reply is that of the recursion with no memo, and of the call with
an empty memo, whatever was asked before; values and maximisers leave the positions that they were
given. A rule that reads the same inputs in this session and in another chooses the same value, in
tables, single choices and plays. The rules of every solution are read off such factors. -/
theorem replies_of_session {decl : Declaration α} {d : Diagram α} (built : decl.build = .ok d)
    (grown : Factor.Pool d.vars pool) {calls : List (Call α)}
    (proper : ∀ call ∈ calls, call.Over d.vars pool) :
    List.Forall₂ Faithful calls (history calls Memo.empty) ∧
    (∀ others : List (Call α), (∀ call ∈ others, call.Over d.vars pool) →
      ∀ c ∈ shown calls, ∀ c' ∈ shown others, c.rule = c'.rule →
        c.seen.AgreeOn (c.rule.inputs.map (·.id)) c'.seen → c.value = c'.value ∧ c.value.isSome) ∧
    ∀ order observations n s m, answer (d.optimize order observations) n = (.ok s, m) →
      ∃ factors, Factor.Pool d.vars factors ∧ ∀ rule ∈ s.rules, rule.Over d.vars factors := by
  have h := Declaration.wellFormed_of_build built
  have graph := grown.graph h.inj
  have pos : ∀ v ∈ d.vars, 0 < v.card := fun v hv => h.card_pos hv
  refine ⟨?_, fun others proper' c hc c' hc' same alike => ?_, fun _ _ _ _ _ solved =>
    Diagram.rules_over_pool built solved⟩
  · have replies := history_spec graph pos proper Memo.sound_empty
    rw [List.forall₂_iff_zip] at replies ⊢
    refine ⟨replies.1, fun {call reply} hz => ?_⟩
    obtain ⟨plain, restored⟩ := replies.2 hz
    exact ⟨plain, plain.trans (alone_eq_plain graph pos (proper call (List.of_mem_zip hz).1)).symm,
      restored⟩
  · obtain ⟨picked, over_pool⟩ := picked_shown h graph proper c hc
    obtain ⟨picked', -⟩ := picked_shown h graph proper' c' hc'
    exact picked.agree picked' (fun f hf => graph.built f (over_pool.member f hf)) same alike

/-- What will the weather be? -/
def rainy : Assignment := NameMap.ofList [("Forecast", .text "rainy")]

/-- A rule asked for rain, for its table and for rain once more, and a solution acted on with and without
a forecast. -/
def rainyDay (rule : DecisionRule Rat) (s : Solution Rat) (forecast : Slots) : List (Call Rat) :=
  [.choose rule rainy, .tabulate rule, .choose rule rainy, .act s forecast, .act s Slots.empty]

/-- On a rainy day the rule for the umbrella says to take it each time. -/
theorem replies_rainyDay : ∃ s m rule forecast,
    answer (Diagram.umbrellaDiagram.optimize ⟨[⟨0⟩, ⟨2⟩, ⟨1⟩]⟩ NameMap.empty) 0 = (.ok s, m) ∧
    s.rules = [rule] ∧ rule.choiceFor rainy = .ok (.bool true) ∧
    Diagram.umbrellaDiagram.slotsOf rainy = .ok forecast ∧
    List.Forall₂ Faithful (rainyDay rule s forecast) (history (rainyDay rule s forecast) Memo.empty) := by
  have solved : (answer (Diagram.umbrellaDiagram.optimize ⟨[⟨0⟩, ⟨2⟩, ⟨1⟩]⟩ NameMap.empty)
      0).1.toOption.map (·.rules.map fun rule => (rule.choiceFor rainy).toOption) =
        some [some (.bool true)] := by decide +kernel
  obtain ⟨s, m, run, chosen⟩ := answer_of_map solved
  obtain ⟨rule, one, take⟩ := List.map_eq_singleton_iff.1 chosen
  have taken : rule.choiceFor rainy = .ok (.bool true) := by
    rcases h : rule.choiceFor rainy with e | value
    · rw [h] at take
      cases take
    · rw [h] at take
      cases take
      rfl
  have valid := @eq_ok_get _ _ (Diagram.umbrellaDiagram.slotsOf rainy) (by decide +kernel)
  have h := Declaration.wellFormed_of_build Diagram.build_umbrella
  obtain ⟨pool, grown, proper⟩ := Diagram.rules_over_pool Diagram.build_umbrella run
  have known : rule.Over Diagram.umbrellaDiagram.vars pool := proper rule (by rw [one]; simp)
  refine ⟨s, m, rule, _, run, one, taken, valid,
    (replies_of_session Diagram.build_umbrella grown ?_).1⟩
  simp only [rainyDay, List.forall_mem_cons]
  exact ⟨known, known, known, ⟨proper, (h.admits_of_slotsOf valid).within⟩,
    ⟨proper, Factor.within_empty⟩, by simp⟩

end Call

end Counsel
