/-
What an agent has learned about an expert after a run, read off the lessons of the run: it remembers
the advice of the latest lesson on a state, and it believes what the verdicts make of the prior, one
verdict for each lesson with advice that counts. A verdict says that the advice was worth the most
by the estimates of that moment (`TrustAgent.learned_from_lessons`).
-/
import Counsel.Proofs.Trust.Run

namespace Counsel

open Outcome

variable {α γ : Type} [Scalar α]

/-! ## Reading the lessons -/

omit [Scalar α] in
/-- What an expert last said about a state: its advice in the latest lesson on that state in which
it gave some. -/
def latest (states : Layout) (expert : ExpertId) (state : Assignment) (lessons : List (Lesson α)) :
    Option Assignment :=
  lessons.reverse.findSome? fun lesson =>
    if states.Agree lesson.trial.state state then lesson.advice.advice? expert else none

/-- The advice of an expert that counts in a lesson: what it said, or with regular updates what it
last said about the state. -/
def counting (states : Layout) (regular : Bool) (expert : ExpertId) (past : List (Lesson α))
    (lesson : Lesson α) : Option Assignment :=
  if regular then latest states expert lesson.trial.state (past ++ [lesson])
  else lesson.advice.advice? expert

/-- The estimates after some lessons. -/
def ActionValues.after (q : ActionValues α) (lessons : List (Lesson α)) : ActionValues α :=
  lessons.foldl (fun q lesson =>
    match q.update lesson.trial.state lesson.trial.action lesson.trial.reward with
    | .ok (_, q) => q
    | .error _ => q) q

/-- Advice to be judged, with the estimates to judge it by. -/
structure Case (α : Type) where
  values : ActionValues α
  state : Assignment
  advice : Assignment

/-- The advice is worth the most of all joint actions, those aside of which the worth is undefined. -/
def Case.Best (c : Case α) : Prop :=
  ∃ value, c.values.value c.state c.advice = .ok value ∧
    IsGreatest {worth ∈ c.values.Worth c.state | Scalar.Defined worth} value

/-- The case that the lesson of a place brings, if there is advice that counts. The estimates are
those after the lesson. -/
def caseAt (fresh : ActionValues α) (regular : Bool) (expert : ExpertId)
    (lessons : List (Lesson α)) (place : Nat) : Option (Case α) :=
  lessons[place]?.bind fun lesson =>
    (counting fresh.states regular expert (lessons.take place) lesson).map fun advice =>
      ⟨fresh.after (lessons.take (place + 1)), lesson.trial.state, advice⟩

/-- The cases of an expert in some lessons, in order. -/
def docket (fresh : ActionValues α) (regular : Bool) (expert : ExpertId)
    (lessons : List (Lesson α)) : List (Case α) :=
  (List.range lessons.length).filterMap (caseAt fresh regular expert lessons)

/-! ## One more lesson -/

omit [Scalar α] in
theorem latest_snoc (states : Layout) (expert : ExpertId) (state : Assignment)
    (past : List (Lesson α)) (lesson : Lesson α) :
    latest states expert state (past ++ [lesson]) =
      (if states.Agree lesson.trial.state state then lesson.advice.advice? expert else none).or
        (latest states expert state past) := by
  rw [latest, List.reverse_append, List.reverse_singleton, List.singleton_append,
    List.findSome?_cons]
  split
  next h => rw [h, Option.some_or]
  next h => rw [h, Option.none_or, latest]

theorem after_snoc (q : ActionValues α) (past : List (Lesson α)) (lesson : Lesson α) :
    q.after (past ++ [lesson]) =
      match (q.after past).update lesson.trial.state lesson.trial.action lesson.trial.reward with
      | .ok (_, q) => q
      | .error _ => q.after past := by
  rw [ActionValues.after, List.foldl_append]
  rfl

theorem caseAt_of_lt {fresh : ActionValues α} {regular : Bool} {expert : ExpertId}
    {past : List (Lesson α)} (lesson : Lesson α) {place : Nat} (h : place < past.length) :
    caseAt fresh regular expert (past ++ [lesson]) place =
      caseAt fresh regular expert past place := by
  rw [caseAt, caseAt, List.getElem?_append_left h, List.take_append_of_le_length h,
    List.take_append_of_le_length (Nat.le_of_lt h)]

theorem docket_snoc (fresh : ActionValues α) (regular : Bool) (expert : ExpertId)
    (past : List (Lesson α)) (lesson : Lesson α) :
    docket fresh regular expert (past ++ [lesson]) =
      docket fresh regular expert past ++
        ((counting fresh.states regular expert past lesson).map fun advice =>
          (⟨fresh.after (past ++ [lesson]), lesson.trial.state, advice⟩ : Case α)).toList := by
  have last : caseAt fresh regular expert (past ++ [lesson]) past.length =
      (counting fresh.states regular expert past lesson).map fun advice =>
        ⟨fresh.after (past ++ [lesson]), lesson.trial.state, advice⟩ := by
    rw [caseAt, List.getElem?_concat_length, List.take_left, List.take_of_length_le (by simp)]
    rfl
  rw [docket, List.length_append, List.length_singleton, List.range_succ, List.filterMap_append,
    List.filterMap_cons, List.filterMap_nil, last,
    List.filterMap_congr fun place h => caseAt_of_lt lesson (List.mem_range.1 h), ← docket]
  cases counting fresh.states regular expert past lesson <;> rfl

/-! ## What an insight holds -/

/-- What is learned about an expert, as the lessons have it. -/
structure Insight.Reflects (insight : Insight α) (fresh : ActionValues α) (config : TrustConfig α)
    (expert : ExpertId) (lessons : List (Lesson α)) : Prop where
  values : insight.values = fresh.after lessons
  frame : insight.values.reset = fresh.reset
  layout : insight.known.memory.layout = fresh.states
  memory : ∀ state i, fresh.states.indexOf state = .ok i →
    insight.known.memory.at? i = some (latest fresh.states expert state lessons)
  belief : ∃ outcomes,
    List.Forall₂ (fun (c : Case α) outcome => (outcome = true ↔ c.Best))
      (docket fresh config.regularUpdate expert lessons) outcomes ∧
    insight.known.belief = outcomes.foldl Belief.record (.ofConfig config)

namespace Insight

variable {fresh : ActionValues α} {config : TrustConfig α} {expert : ExpertId}

theorem reflects_start : (start fresh config).Reflects fresh config expert [] where
  values := rfl
  frame := rfl
  layout := rfl
  memory _ _ h := StateTable.at?_replicate (Layout.indexOf_lt h)
  belief := ⟨[], .nil, rfl⟩

theorem Reflects.get {insight : Insight α} {lessons : List (Lesson α)}
    (h : insight.Reflects fresh config expert lessons) (state : Assignment) :
    insight.known.memory.get state =
      (fresh.states.indexOf state).map fun _ => latest fresh.states expert state lessons := by
  rcases hi : fresh.states.indexOf state with e | i
  · exact StateTable.get_of_error (h.layout ▸ hi)
  · obtain ⟨content, held, read⟩ := StateTable.get_of_indexOf (h.layout ▸ hi)
    rw [h.memory state i hi] at held
    cases held
    exact read

/-- Advice in a lesson is remembered for the states that agree with that of the lesson. -/
theorem remember_reflects {insight : Insight α} {past : List (Lesson α)}
    (h : insight.Reflects fresh config expert past) {lesson : Lesson α}
    {memory : StateTable (Option Assignment)}
    (remembered : insight.known.remember lesson.trial.state (lesson.advice.advice? expert) =
      .ok memory) :
    memory.layout = fresh.states ∧ ∀ state i, fresh.states.indexOf state = .ok i →
      memory.at? i = some (latest fresh.states expert state (past ++ [lesson])) := by
  simp only [latest_snoc]
  generalize lesson.advice.advice? expert = said at remembered ⊢
  rcases said with _ | advice
  · cases remembered
    refine ⟨h.layout, fun state i hi => ?_⟩
    rw [h.memory state i hi, ite_self, Option.none_or]
  · simp only [Acquaintance.remember] at remembered
    rcases stored : insight.known.memory.set lesson.trial.state (some advice) with e | ⟨old, after⟩
    · rw [stored] at remembered
      cases remembered
    · rw [stored] at remembered
      cases remembered
      obtain ⟨j, hj, rfl⟩ := StateTable.set_eq_ok stored
      rw [h.layout] at hj
      refine ⟨h.layout, fun state i hi => ?_⟩
      rw [StateTable.at?_setAt (h.layout ▸ Layout.indexOf_lt hj), h.memory state i hi]
      simp only [Layout.agree_iff hj hi]
      split
      · rfl
      · rw [Option.none_or]

omit [Scalar α] in
/-- The advice that counts is read off the lessons. -/
theorem counted_eq {memory : StateTable (Option Assignment)} {past : List (Lesson α)}
    {lesson : Lesson α} {regular : Bool} {i : Nat} (layout : memory.layout = fresh.states)
    (held : ∀ state i, fresh.states.indexOf state = .ok i →
      memory.at? i = some (latest fresh.states expert state (past ++ [lesson])))
    (hi : fresh.states.indexOf lesson.trial.state = .ok i) :
    Acquaintance.counted regular memory lesson.trial.state (lesson.advice.advice? expert) =
      .ok (counting fresh.states regular expert past lesson) := by
  rw [Acquaintance.counted, counting]
  split
  · obtain ⟨content, found, read⟩ := StateTable.get_of_indexOf (layout ▸ hi)
    rw [held _ i hi] at found
    cases found
    exact read
  · rfl

/-- The advice that counts, if there is some, is one more outcome for the belief. -/
theorem weigh_eq_ok {values : ActionValues α} {state : Assignment} {counted : Option Assignment}
    {known after : Acquaintance α} (h : known.weigh values state counted = .ok after) :
    after.memory = known.memory ∧ ∃ outcomes,
      List.Forall₂ (fun advice outcome => values.optimal state advice = .ok outcome) counted.toList
        outcomes ∧
      after.belief = outcomes.foldl Belief.record known.belief := by
  rcases counted with _ | advice
  · cases h
    exact ⟨rfl, [], .nil, rfl⟩
  · obtain ⟨outcome, judged, h⟩ := bind_eq_ok.1 h
    cases h
    exact ⟨rfl, [outcome], .cons judged .nil, rfl⟩

variable [Scalar.LawfulOrder α]

/-- One more lesson. -/
theorem reflects_hear (laid : fresh.Laid) (distinct : fresh.actions.Distinct)
    {insight after : Insight α} {past : List (Lesson α)}
    (h : insight.Reflects fresh config expert past) {lesson : Lesson α}
    (heard : insight.hear config.regularUpdate (lesson.heard expert) = .ok after) :
    after.Reflects fresh config expert (past ++ [lesson]) := by
  obtain ⟨⟨value, moved⟩, studied⟩ := hear_eq_ok.1 heard
  have values : after.values = fresh.after (past ++ [lesson]) := by
    rw [after_snoc, ← h.values, moved]
  have frame : after.values.reset = fresh.reset := (ActionValues.reset_update moved).trans h.frame
  have index : ∃ i, fresh.states.indexOf lesson.trial.state = .ok i := by
    obtain ⟨_, cell, -⟩ := ActionValues.update_eq_ok.1 moved
    obtain ⟨i, _, hi, -⟩ := ActionValues.cell_eq_ok.1 cell
    exact ⟨i, congrArg ActionValues.states h.frame ▸ hi⟩
  obtain ⟨i, hi⟩ := index
  obtain ⟨memory, remembered, studied⟩ := bind_eq_ok.1 studied
  obtain ⟨layout, held⟩ := remember_reflects h remembered
  rw [counted_eq layout held hi, ok_bind] at studied
  obtain ⟨same, outcomes, judged, believed⟩ := weigh_eq_ok studied
  obtain ⟨earlier, sound, folded⟩ := h.belief
  -- the docket grows by the advice that this lesson has judged, if there is any
  refine ⟨values, frame, same ▸ layout, fun state i hi => same ▸ held state i hi,
    earlier ++ outcomes, ?_, ?_⟩
  · rw [docket_snoc]
    refine List.rel_append sound ?_
    rw [Option.toList_map, List.forall₂_map_left_iff]
    refine judged.imp fun {advice outcome} judged => ?_
    have laid' : after.values.Laid :=
      ActionValues.laid_reset.1 (frame ▸ ActionValues.laid_reset.2 laid)
    have distinct' : after.values.actions.Distinct :=
      congrArg ActionValues.actions frame ▸ distinct
    obtain ⟨value, worth, best⟩ := ActionValues.optimal_eq laid' distinct' judged
    rw [← values]
    refine best.trans ⟨fun greatest => ⟨value, worth, greatest⟩, ?_⟩
    rintro ⟨value', worth', greatest⟩
    cases worth.symm.trans worth'
    exact greatest
  · rw [List.foldl_append, ← folded]
    exact believed

/-- A whole course of lessons. -/
theorem reflects_lessons (laid : fresh.Laid) (distinct : fresh.actions.Distinct)
    {insight : Insight α} {lessons : List (Lesson α)}
    (heard : (lessons.map (Lesson.heard expert)).foldlM (hear config.regularUpdate)
      (start fresh config) = .ok insight) :
    insight.Reflects fresh config expert lessons := by
  induction lessons using List.reverseRecOn generalizing insight with
  | nil =>
    cases heard
    exact reflects_start
  | append_singleton past lesson ih =>
    rw [List.map_append, List.foldlM_append] at heard
    obtain ⟨between, before, heard⟩ := bind_eq_ok.1 heard
    obtain ⟨after, heard, done⟩ := bind_eq_ok.1 heard
    cases done
    exact reflects_hear laid distinct (ih before) heard

end Insight

/-! ## After a run -/

namespace TrustAgent

variable [Scalar.LawfulOrder α] [RandomSource γ]

/-- After a reset and any run, an agent remembers of an expert what it last said about each state,
and its belief in the expert is the prior with the outcomes of the expert's cases recorded in
order: an outcome is good exactly when the advice was worth the most, by the learner's estimates
after the lesson, of all joint actions. -/
theorem learned_from_lessons {states actions : Layout} {learning : LearnerConfig α}
    {config : TrustConfig α} (distinct : actions.Distinct) {agent after : TrustAgent α γ}
    (arises : agent.Arises states actions learning config) {experts : List ExpertId}
    {expert : ExpertId} (member : expert ∈ experts) {events : List (Event α)}
    (ran : (agent.reset experts).run events = some after) :
    ∃ fresh, ActionValues.ofConfig states actions learning = .ok fresh ∧
      after.base.values = fresh.after (lessons events) ∧
      (∀ state, after.remembered expert state = ((states.indexOf state).map fun _ =>
        latest states expert state (lessons events)).mapError .layout) ∧
      ∃ outcomes,
        List.Forall₂ (fun (c : Case α) outcome => (outcome = true ↔ c.Best))
          (docket fresh config.regularUpdate expert (lessons events)) outcomes ∧
        after.belief? expert = some (outcomes.foldl Belief.record (.ofConfig config)) := by
  obtain ⟨fresh, insight, made, heard, holds⟩ := arises.holds_run_reset member ran
  obtain ⟨-, joint, -, rfl⟩ := ActionValues.ofConfig_eq_ok.1 made
  have reflects := Insight.reflects_lessons (ActionValues.laid_of_ofConfig made) distinct heard
  obtain ⟨outcomes, sound, folded⟩ := reflects.belief
  refine ⟨_, made, holds.values.trans reflects.values, fun state => ?_, outcomes, sound, ?_⟩
  · rw [holds.remembered, reflects.get]
  · rw [holds.belief, folded]

/-- The scout's advice pays in the first lesson; the second one, in which nobody speaks, shows that
the other move pays more. -/
def reconsidered : List (Event Rat) :=
  [.learn ⟨⟨signal true, move true, 1⟩, .ofList [("scout", some (move true))]⟩,
    .act (signal false) true,
    .learn ⟨⟨signal true, move false, 2⟩, .empty⟩]

theorem learned_from_reconsidered :
    ∃ after, ∃ outcomes : List Bool, (novice.reset ["scout"]).run reconsidered = some after ∧
      after.remembered "scout" (signal true) = .ok (some (move true)) ∧
      outcomes.length = 2 ∧
      after.belief? "scout" = some (outcomes.foldl Belief.record (.ofConfig .standard)) := by
  obtain ⟨after, ran⟩ := Option.isSome_iff_exists.1
    (show ((novice.reset ["scout"]).run reconsidered).isSome = true by decide +kernel)
  obtain ⟨fresh, made, -, remembered, outcomes, sound, belief⟩ :=
    learned_from_lessons (by decide +kernel) arises_novice (List.mem_singleton.2 rfl) ran
  refine ⟨after, outcomes, ran, ?_, ?_, belief⟩
  · have index : signals.indexOf (signal true) = .ok 1 := by decide +kernel
    have last : latest signals "scout" (signal true) (lessons reconsidered) = some (move true) := by
      decide +kernel
    rw [remembered, index, ← last]
    rfl
  · have laid := eq_ok_get
      (show (ActionValues.ofConfig signals moves (.standard : LearnerConfig Rat)).toOption.isSome =
        true by decide +kernel)
    cases made.symm.trans laid
    rw [← sound.length_eq]
    decide +kernel

end TrustAgent

end Counsel
