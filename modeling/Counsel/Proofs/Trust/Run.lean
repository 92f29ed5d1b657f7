/-
Runs of an agent that weighs advice: it acts and it learns, in any order. What is learned about one
expert is a function of the trials and of what that expert said about them
(`TrustAgent.hear_of_run`); the acts in between and the other experts do not enter.
-/
import Counsel.Proofs.Trust.Learning

namespace Counsel

open Outcome

variable {α γ : Type} [Scalar α]

/-! ## Agents -/

/-- The learners that come about, whatever they were used for. -/
inductive GreedyLearner.Arises [RandomSource γ] (states actions : Layout)
    (config : LearnerConfig α) : GreedyLearner α γ → Prop
  | made {trials : Nat} {seed : UInt64} {learner : GreedyLearner α γ}
      (made : ofConfig states actions config trials seed = .ok learner) :
      Arises states actions config learner
  | acted {learner : GreedyLearner α γ} (state : Assignment) (explore : Bool)
      (arises : Arises states actions config learner) :
      Arises states actions config (answer (act state explore) learner).2
  | learned {learner : GreedyLearner α γ} (trial : Trial α)
      (arises : Arises states actions config learner) :
      Arises states actions config (answer (learn trial) learner).2
  | reset {learner : GreedyLearner α γ} (arises : Arises states actions config learner) :
      Arises states actions config learner.reset

/-- The agents that come about around a learner, whatever they were used for. -/
inductive TrustAgent.Arises [RandomSource γ] (states actions : Layout) (learning : LearnerConfig α)
    (config : TrustConfig α) : TrustAgent α γ → Prop
  | made {base : GreedyLearner α γ} {trials : Nat} {agent : TrustAgent α γ}
      (arises : base.Arises states actions learning)
      (made : ofConfig base config trials = .ok agent) :
      Arises states actions learning config agent
  | acted {agent : TrustAgent α γ} (state : Assignment) (mayExplore : Bool)
      (arises : Arises states actions learning config agent) :
      Arises states actions learning config (answer (act state mayExplore) agent).2
  | learned {agent : TrustAgent α γ} (trial : Trial α) (advice : AdviceBundle)
      (arises : Arises states actions learning config agent) :
      Arises states actions learning config (answer (learn trial advice) agent).2
  | reset {agent : TrustAgent α γ} (experts : List ExpertId)
      (arises : Arises states actions learning config agent) :
      Arises states actions learning config (agent.reset experts)

section Frame

variable [RandomSource γ] {states actions : Layout} {learning : LearnerConfig α}
  {config : TrustConfig α}

/-- A learner forgets back to the estimates that it was made with. -/
theorem GreedyLearner.Arises.fresh {learner : GreedyLearner α γ}
    (h : learner.Arises states actions learning) :
    ActionValues.ofConfig states actions learning = .ok learner.values.reset := by
  induction h with
  | @made trials seed learner made =>
    unfold ofConfig at made
    split at made
    next => cases made
    next =>
      obtain ⟨values, laid, made⟩ := bind_eq_ok.1 made
      cases made
      rw [laid, ActionValues.reset_of_ofConfig laid]
  | acted state explore _ ih => rw [ih, act_kept state explore]
  | learned trial _ ih => rw [ih, reset_learn]
  | reset _ ih => exact ih

theorem TrustAgent.Arises.fresh {agent : TrustAgent α γ}
    (h : agent.Arises states actions learning config) :
    ActionValues.ofConfig states actions learning = .ok agent.base.values.reset ∧
      agent.config = config := by
  induction h with
  | made arises made =>
    unfold ofConfig at made
    split at made
    next => cases made
    next =>
      cases made
      exact ⟨arises.fresh, rfl⟩
  | @acted agent state mayExplore _ ih =>
    have framed := act_framed state mayExplore agent
    exact ⟨ih.1.trans (congrArg _ framed.reset.symm), framed.config.trans ih.2⟩
  | @learned agent trial advice _ ih =>
    have framed := learn_framed trial advice agent
    exact ⟨ih.1.trans (congrArg _ framed.reset.symm), framed.config.trans ih.2⟩
  | reset _ _ ih => exact ih

end Frame

/-! ## Runs -/

/-- A finished trial with what each expert said about it. -/
structure Lesson (α : Type) where
  trial : Trial α
  advice : AdviceBundle

/-- What an agent can be asked for. -/
inductive Event (α : Type) where
  | act (state : Assignment) (mayExplore : Bool)
  | learn (lesson : Lesson α)

/-- The lesson of an event, if it is one. -/
def Event.lesson? : Event α → Option (Lesson α)
  | .act .. => none
  | .learn lesson => some lesson

/-- The lessons of a run, in order. -/
def lessons (events : List (Event α)) : List (Lesson α) := events.filterMap Event.lesson?

namespace TrustAgent

variable [RandomSource γ]

/-- The agent after an event. An act may come to nothing, but a lesson must go well. -/
def play (agent : TrustAgent α γ) : Event α → Option (TrustAgent α γ)
  | .act state mayExplore => some (answer (act state mayExplore) agent).2
  | .learn lesson =>
    match answer (learn lesson.trial lesson.advice) agent with
    | (.ok (), after) => some after
    | (.error _, _) => none

/-- The agent after some events. -/
def run (agent : TrustAgent α γ) (events : List (Event α)) : Option (TrustAgent α γ) :=
  events.foldlM play agent

theorem play_learn_eq_some {agent after : TrustAgent α γ} {lesson : Lesson α} :
    agent.play (.learn lesson) = some after ↔
      answer (learn lesson.trial lesson.advice) agent = (.ok (), after) := by
  rw [play]
  split
  next h => simp [h]
  next h => simp [h]

end TrustAgent

/-! ## One expert -/

/-- What is learned about the actions and about one expert. -/
structure Insight (α : Type) where
  values : ActionValues α
  known : Acquaintance α

namespace Insight

/-- Before the first lesson: nothing is remembered, and only the prior is believed. -/
def start (values : ActionValues α) (config : TrustConfig α) : Insight α :=
  ⟨values, .ofConfig config, .replicate values.states none⟩

/-- What a trial, and what the expert said about it, add to an insight. -/
def hear (regular : Bool) (insight : Insight α) (heard : Trial α × Option Assignment) :
    Except LayoutError (Insight α) := do
  let (trial, advice) := heard
  let (_, values) ← insight.values.update trial.state trial.action trial.reward
  return ⟨values, ← insight.known.study values regular trial advice⟩

theorem hear_eq_ok {regular : Bool} {insight after : Insight α} {trial : Trial α}
    {advice : Option Assignment} :
    insight.hear regular (trial, advice) = .ok after ↔
      (∃ value, insight.values.update trial.state trial.action trial.reward =
        .ok (value, after.values)) ∧
      insight.known.study after.values regular trial advice = .ok after.known := by
  simp only [hear, bind_eq_ok, pure_eq_ok, Except.ok.injEq]
  constructor
  · rintro ⟨⟨value, values⟩, moved, known, studied, rfl⟩
    exact ⟨⟨value, moved⟩, studied⟩
  · rintro ⟨⟨value, moved⟩, studied⟩
    exact ⟨(value, after.values), moved, after.known, studied, rfl⟩

end Insight

/-- A trial with what one expert said about it. -/
def Lesson.heard (expert : ExpertId) (lesson : Lesson α) : Trial α × Option Assignment :=
  (lesson.trial, lesson.advice.advice? expert)

namespace TrustAgent

/-- What an agent has learned about the actions and about one expert. -/
structure Holds (agent : TrustAgent α γ) (expert : ExpertId) (insight : Insight α) : Prop where
  values : agent.base.values = insight.values
  known : agent.experts.get? expert = some insight.known

omit [Scalar α] in
theorem Holds.belief {agent : TrustAgent α γ} {expert : ExpertId} {insight : Insight α}
    (holds : agent.Holds expert insight) : agent.belief? expert = some insight.known.belief := by
  rw [belief?, holds.known]
  rfl

omit [Scalar α] in
theorem Holds.remembered {agent : TrustAgent α γ} {expert : ExpertId} {insight : Insight α}
    (holds : agent.Holds expert insight) (state : Assignment) :
    agent.remembered expert state = (insight.known.memory.get state).mapError .layout := by
  rw [TrustAgent.remembered, holds.known]

variable [RandomSource γ]

/-- One event: an act adds nothing to an insight, a lesson what was heard from the expert. -/
theorem holds_play {agent after : TrustAgent α γ} {expert : ExpertId} {insight : Insight α}
    (holds : agent.Holds expert insight) {event : Event α} (step : agent.play event = some after) :
    after.config = agent.config ∧ ∃ insight',
      (event.lesson?.toList.map (Lesson.heard expert)).foldlM
          (Insight.hear agent.config.regularUpdate) insight = .ok insight' ∧
        after.Holds expert insight' := by
  cases event with
  | act state mayExplore =>
    cases step
    have kept := act_kept state mayExplore agent
    exact ⟨kept.config, insight, rfl, kept.values.trans holds.values,
      (congrArg (·.get? expert) kept.experts).trans holds.known⟩
  | learn lesson =>
    obtain ⟨⟨value, moved⟩, same, each⟩ := learn_eq_ok (play_learn_eq_some.1 step)
    obtain ⟨known, studied, found⟩ := each expert insight.known holds.known
    rw [holds.values] at moved
    refine ⟨same, ⟨after.base.values, known⟩, ?_, rfl, found⟩
    have heard : insight.hear agent.config.regularUpdate (lesson.heard expert) =
        .ok ⟨after.base.values, known⟩ := Insight.hear_eq_ok.2 ⟨⟨value, moved⟩, studied⟩
    simp only [Event.lesson?, Option.toList_some, List.map_cons, List.map_nil, List.foldlM_cons,
      heard, ok_bind, List.foldlM_nil, pure_eq_ok]

/-- A whole run: what an agent has learned about the actions and about one expert is a function of
the trials and of what that expert said about them. -/
theorem holds_run {agent after : TrustAgent α γ} {expert : ExpertId} {insight : Insight α}
    (holds : agent.Holds expert insight) {events : List (Event α)}
    (ran : agent.run events = some after) :
    ∃ insight', ((lessons events).map (Lesson.heard expert)).foldlM
        (Insight.hear agent.config.regularUpdate) insight = .ok insight' ∧
      after.Holds expert insight' := by
  induction events generalizing agent insight with
  | nil =>
    cases ran
    exact ⟨insight, rfl, holds⟩
  | cons event rest ih =>
    rw [run, List.foldlM_cons] at ran
    obtain ⟨between, step, ran⟩ := Option.bind_eq_some_iff.1 ran
    obtain ⟨same, insight', heard, holds'⟩ := holds_play holds step
    obtain ⟨insight'', later, holds''⟩ := ih holds' ran
    refine ⟨insight'', ?_, holds''⟩
    have split : lessons (event :: rest) = event.lesson?.toList ++ lessons rest := by
      cases event <;> rfl
    rw [split, List.map_append, List.foldlM_append, heard, ok_bind, ← same]
    exact later

variable {states actions : Layout} {learning : LearnerConfig α} {config : TrustConfig α}

/-- A reset leaves the estimates that the learner was made with, and of each expert the prior. -/
theorem Arises.holds_reset {agent : TrustAgent α γ}
    (arises : agent.Arises states actions learning config) {experts : List ExpertId}
    {expert : ExpertId} (member : expert ∈ experts) :
    (agent.reset experts).config = config ∧ ∃ fresh,
      ActionValues.ofConfig states actions learning = .ok fresh ∧
        (agent.reset experts).Holds expert (.start fresh config) := by
  obtain ⟨made, settings⟩ := arises.fresh
  refine ⟨settings, _, made, rfl, ?_⟩
  rw [← settings]
  exact NameMap.get?_ofList_const member

/-- After a reset, what is learned about an expert begins with the prior. -/
theorem Arises.holds_run_reset {agent after : TrustAgent α γ}
    (arises : agent.Arises states actions learning config) {experts : List ExpertId}
    {expert : ExpertId} (member : expert ∈ experts) {events : List (Event α)}
    (ran : (agent.reset experts).run events = some after) :
    ∃ fresh insight, ActionValues.ofConfig states actions learning = .ok fresh ∧
      ((lessons events).map (Lesson.heard expert)).foldlM (Insight.hear config.regularUpdate)
          (.start fresh config) = .ok insight ∧
        after.Holds expert insight := by
  obtain ⟨settings, fresh, made, holds⟩ := arises.holds_reset member
  obtain ⟨insight, heard, holds'⟩ := holds_run holds ran
  rw [settings] at heard
  exact ⟨fresh, insight, made, heard, holds'⟩

end TrustAgent

/-! ## A small agent -/

/-- A source that always draws zero. -/
inductive Still where
  | still

instance : RandomSource Still where
  ofSeed _ := .still
  unit source := (0, source)
  below _ source := (0, source)
  word source := (0, source)
  unit_lt _ := Nat.zero_lt_succ _
  below_lt _ _ h := h

/-- One signal to see. -/
def signals : Layout := ⟨[("Signal", Value.boolean)], rfl, by decide⟩

/-- One move to make. -/
def moves : Layout := ⟨[("Move", Value.boolean)], rfl, by decide⟩

def signal (lit : Bool) : Assignment := .ofList [("Signal", .bool lit)]

def move (go : Bool) : Assignment := .ofList [("Move", .bool go)]

/-- A learner of the moves. -/
def beginner : GreedyLearner Rat Still :=
  (GreedyLearner.ofConfig signals moves .standard 10 0).toOption.get (by decide +kernel)

/-- An agent that weighs advice on the moves. -/
def novice : TrustAgent Rat Still :=
  (TrustAgent.ofConfig beginner .standard 10).toOption.get (by decide +kernel)

theorem arises_novice : novice.Arises signals moves .standard .standard :=
  .made (.made (eq_ok_get _)) (eq_ok_get _)

end Counsel
