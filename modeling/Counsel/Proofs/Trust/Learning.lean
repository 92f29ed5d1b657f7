/-
One step of an agent that weighs advice. To act changes nothing that is learned
(`TrustAgent.act_kept`); to learn updates the learner and then takes each expert's own advice into
what is kept about that expert, and about no other (`TrustAgent.learn_eq_ok`).
-/
import Counsel.Proofs.Step
import Counsel.Proofs.Trust.Values
import Counsel.Trust.Engine

namespace Counsel

open Outcome

variable {α γ : Type} [Scalar α]

/-! ## The learner -/

namespace GreedyLearner

/-- Nothing that was learned has changed. -/
def Kept (before after : GreedyLearner α γ) : Prop := after.values = before.values

/-- Only the source has changed. -/
def Drawn (before after : GreedyLearner α γ) : Prop := ∃ source, after = { before with source }

instance : Std.Refl (Drawn : GreedyLearner α γ → GreedyLearner α γ → Prop) :=
  ⟨fun learner => ⟨learner.source, rfl⟩⟩

instance : IsTrans (GreedyLearner α γ) Drawn :=
  ⟨fun _ _ _ ⟨_, e⟩ ⟨source, e'⟩ => ⟨source, e'.trans (by rw [e])⟩⟩

omit [Scalar α] in
theorem randomAction_drawn [RandomSource γ] :
    Step.Keeps Drawn (randomAction : Step (GreedyLearner α γ) Assignment) := by
  intro learner
  rw [randomAction, answer_get_bind]
  simp only [answer_bind, answer_set, Step.answer_ofLayout]
  exact ⟨_, rfl⟩

theorem act_drawn [RandomSource γ] (state : Assignment) (explore : Bool) :
    Step.Keeps (Drawn : GreedyLearner α γ → _ → Prop) (act state explore) := by
  refine Step.Keeps.bind .get fun learner => ?_
  refine Step.Keeps.bind (.ofLayout _) fun (action, value) => ?_
  dsimp only
  split
  · exact .pure _
  · exact randomAction_drawn

theorem act_kept [RandomSource γ] (state : Assignment) (explore : Bool) :
    Step.Keeps (Kept : GreedyLearner α γ → _ → Prop) (act state explore) := by
  intro learner
  obtain ⟨source, e⟩ := act_drawn state explore learner
  rw [Kept, e]

theorem answer_learn (trial : Trial α) (learner : GreedyLearner α γ) :
    answer (learn trial) learner =
      match learner.values.update trial.state trial.action trial.reward with
      | .ok (_, values) => (.ok (), { learner with learned := learner.learned + 1, values })
      | .error e => (.error (.layout e), { learner with learned := learner.learned + 1 }) := by
  rw [learn, answer_bind, answer_modify]
  dsimp only
  rw [answer_get_bind, answer_bind, Step.answer_ofLayout]
  dsimp only
  rcases learner.values.update trial.state trial.action trial.reward with e | ⟨value, values⟩
  · rfl
  · rfl

theorem reset_learn (trial : Trial α) (learner : GreedyLearner α γ) :
    (answer (learn trial) learner).2.values.reset = learner.values.reset := by
  rw [answer_learn]
  split
  next h => exact ActionValues.reset_update h
  next => rfl

end GreedyLearner

namespace TrustAgent

/-! ## Acting -/

/-- Nothing that was learned has changed, about the actions or about the experts. -/
structure Kept (before after : TrustAgent α γ) : Prop where
  values : after.base.values = before.base.values
  experts : after.experts = before.experts
  config : after.config = before.config

instance : Std.Refl (Kept : TrustAgent α γ → TrustAgent α γ → Prop) := ⟨fun _ => ⟨rfl, rfl, rfl⟩⟩

instance : IsTrans (TrustAgent α γ) Kept :=
  ⟨fun _ _ _ h k => ⟨k.values.trans h.values, k.experts.trans h.experts, k.config.trans h.config⟩⟩

variable [RandomSource γ]

section Acting

variable {R : TrustAgent α γ → TrustAgent α γ → Prop} [Std.Refl R] [IsTrans (TrustAgent α γ) R]
  (acting : ∀ (agent : TrustAgent α γ) (own other : γ) (history : NameMap (Array α)),
    R agent { agent with base := { agent.base with source := own }, history, source := other })

include acting

omit [Std.Refl R] [IsTrans (TrustAgent α γ) R] in
theorem fraction_keeps : Step.Keeps R (fraction : Step (TrustAgent α γ) α) :=
  fun agent => acting agent agent.base.source _ agent.history

omit [Scalar α] [Std.Refl R] [IsTrans (TrustAgent α γ) R] in
theorem randomAction_keeps : Step.Keeps R (randomAction : Step (TrustAgent α γ) Assignment) := by
  intro agent
  rw [randomAction, answer_get_bind]
  simp only [answer_bind, answer_set, Step.answer_ofLayout]
  exact acting agent agent.base.source _ agent.history

omit [Std.Refl R] [IsTrans (TrustAgent α γ) R] in
theorem exploit_keeps (state : Assignment) :
    Step.Keeps R (exploit state : Step (TrustAgent α γ) Assignment) := by
  intro agent
  obtain ⟨own, e⟩ := GreedyLearner.act_drawn state false agent.base
  rw [exploit, Step.answer_within, e]
  exact acting agent own agent.source agent.history

theorem followPosterior_keeps (state : Assignment) :
    Step.Keeps R (followPosterior state : Step (TrustAgent α γ) Assignment) := by
  refine Step.Keeps.bind .get fun agent => ?_
  refine Step.Keeps.bind (.ofLayout _) fun posterior => ?_
  cases posterior with
  | none => exact randomAction_keeps acting
  | some posterior =>
    dsimp only
    split
    · exact randomAction_keeps acting
    · refine Step.Keeps.bind (.ofLayout _) fun action => ?_
      refine Step.Keeps.bind (fraction_keeps acting) fun u => ?_
      split
      · exact .pure _
      · exact randomAction_keeps acting

theorem followBest_keeps (state : Assignment) :
    Step.Keeps R (followBest state : Step (TrustAgent α γ) Assignment) := by
  refine Step.Keeps.bind .get fun agent => ?_
  refine Step.Keeps.bind (.ofLayout _) fun best => ?_
  cases best with
  | none => exact randomAction_keeps acting
  | some best =>
    refine Step.Keeps.bind (fraction_keeps acting) fun u => ?_
    split
    · exact .pure _
    · exact randomAction_keeps acting

theorem explore_keeps (state : Assignment) :
    Step.Keeps R (explore state : Step (TrustAgent α γ) Assignment) := by
  refine Step.Keeps.bind .get fun agent => ?_
  split
  · exact .ofLayout _
  · split
    · exact followPosterior_keeps acting state
    · exact followBest_keeps acting state

/-- All that an act changes are the sources and the notes, whether it goes well or not. -/
theorem act_keeps (state : Assignment) (mayExplore : Bool) :
    Step.Keeps R (act state mayExplore : Step (TrustAgent α γ) Assignment) := by
  refine Step.Keeps.bind (fun agent => acting agent agent.base.source agent.source _) fun _ => ?_
  split
  · exact exploit_keeps acting state
  · refine Step.Keeps.bind (fraction_keeps acting) fun u => ?_
    refine Step.Keeps.bind .get fun agent => ?_
    split
    · exact exploit_keeps acting state
    · exact explore_keeps acting state

end Acting

/-- To act changes nothing that is learned, whether it goes well or not. -/
theorem act_kept (state : Assignment) (mayExplore : Bool) :
    Step.Keeps Kept (act state mayExplore : Step (TrustAgent α γ) Assignment) :=
  act_keeps (fun _ _ _ _ => ⟨rfl, rfl, rfl⟩) state mayExplore

end TrustAgent

/-! ## Judging -/

namespace Acquaintance

/-- What is remembered after an expert spoke, or kept silent, about a state. -/
def remember (known : Acquaintance α) (state : Assignment) (fresh : Option Assignment) :
    Except LayoutError (StateTable (Option Assignment)) :=
  match fresh with
  | none => .ok known.memory
  | some advice => (known.memory.set state (some advice)).map (·.2)

/-- The advice that counts for a state: what is remembered, or only what is fresh. -/
def counted (regular : Bool) (memory : StateTable (Option Assignment)) (state : Assignment)
    (fresh : Option Assignment) : Except LayoutError (Option Assignment) :=
  if regular then memory.get state else .ok fresh

/-- What the advice that counts makes of the belief about its expert: it is judged by the learner's
estimates. -/
def weigh (values : ActionValues α) (state : Assignment) (counted : Option Assignment)
    (known : Acquaintance α) : Except LayoutError (Acquaintance α) :=
  match counted with
  | none => .ok known
  | some advice => do
    return { known with belief := known.belief.record (← values.optimal state advice) }

/-- What an expert's advice in a trial makes of what is kept about the expert: fresh advice is
remembered, and the advice that counts is judged. -/
def study (values : ActionValues α) (regular : Bool) (trial : Trial α) (fresh : Option Assignment)
    (known : Acquaintance α) : Except LayoutError (Acquaintance α) := do
  let memory ← known.remember trial.state fresh
  let counted ← counted regular memory trial.state fresh
  weigh values trial.state counted { known with memory }

/-- To weigh advice does not change what is remembered. -/
theorem memory_of_weigh {values : ActionValues α} {state : Assignment} {counted : Option Assignment}
    {known after : Acquaintance α} (weighed : known.weigh values state counted = .ok after) :
    after.memory = known.memory := by
  cases counted with
  | none =>
    cases weighed
    rfl
  | some advice =>
    obtain ⟨verdict, -, weighed⟩ := bind_eq_ok.1 weighed
    cases weighed
    rfl

omit [Scalar α] in
theorem remember_eq_ok {known : Acquaintance α} {state : Assignment} {fresh : Option Assignment}
    {memory : StateTable (Option Assignment)} :
    known.remember state fresh = .ok memory ↔ fresh = none ∧ memory = known.memory ∨
      ∃ a old, fresh = some a ∧ known.memory.set state (some a) = .ok (old, memory) := by
  cases fresh with
  | none => simp [remember, eq_comm]
  | some a =>
    rcases set : known.memory.set state (some a) with e | ⟨old, table⟩
    · simp [remember, set, Except.map]
    · simp [remember, set, Except.map]

/-- To study an expert is to remember what it said, among others. -/
theorem remember_of_study {values : ActionValues α} {regular : Bool} {trial : Trial α}
    {fresh : Option Assignment} {known after : Acquaintance α}
    (studied : known.study values regular trial fresh = .ok after) :
    known.remember trial.state fresh = .ok after.memory := by
  obtain ⟨memory, stored, studied⟩ := bind_eq_ok.1 studied
  obtain ⟨counted, -, weighed⟩ := bind_eq_ok.1 studied
  rw [memory_of_weigh weighed]
  exact stored

end Acquaintance

namespace TrustAgent

theorem judge_of_unknown {trial : Trial α} {id : ExpertId} {fresh : Option Assignment}
    {agent : TrustAgent α γ} (h : agent.experts.get? id = none) :
    answer (judge trial id fresh) agent = (.ok (), agent) := by
  rw [judge, answer_get_bind, h]
  rfl

/-- The end of judging, once the advice that counts is known. -/
def settle (agent : TrustAgent α γ) (state : Assignment) (id : ExpertId) (known : Acquaintance α)
    (counted : Option Assignment) : Step (TrustAgent α γ) Unit :=
  match counted with
  | none => return ()
  | some advice => do
    let values ← Step.ofLayout (agent.base.values.stateValues state)
    let value ← Step.ofLayout (agent.base.values.value state advice)
    let optimal := (Scalar.largest values).all (· ≤ value)
    let known := { known with belief := known.belief.record optimal }
    set { agent with experts := agent.experts.insert id known }

theorem answer_settle (agent : TrustAgent α γ) (state : Assignment) (id : ExpertId)
    (known : Acquaintance α) (counted : Option Assignment) :
    answer (settle agent state id known counted)
        { agent with experts := agent.experts.insert id known } =
      match known.weigh agent.base.values state counted with
      | .ok known' => (.ok (), { agent with experts := agent.experts.insert id known' })
      | .error e => (.error (.layout e), { agent with experts := agent.experts.insert id known }) := by
  cases counted with
  | none => rfl
  | some advice =>
    rw [settle, Acquaintance.weigh, ActionValues.optimal, answer_bind, Step.answer_ofLayout]
    rcases agent.base.values.stateValues state with e | values
    · rfl
    · dsimp only [Except.mapError]
      rw [answer_bind, Step.answer_ofLayout]
      rcases agent.base.values.value state advice with e | value
      · rfl
      · rfl

/-- The part of judging that comes once the memory of the expert is up to date. -/
def review (agent : TrustAgent α γ) (state : Assignment) (id : ExpertId)
    (fresh : Option Assignment) (known : Acquaintance α) : Step (TrustAgent α γ) Unit := do
  set { agent with experts := agent.experts.insert id known }
  if agent.config.regularUpdate then
    settle agent state id known (← Step.ofLayout (known.memory.get state))
  else settle agent state id known fresh

theorem answer_review (agent : TrustAgent α γ) (state : Assignment) (id : ExpertId)
    (fresh : Option Assignment) (known : Acquaintance α) (s : TrustAgent α γ) :
    answer (review agent state id fresh known) s =
      match (do
        let counted ← Acquaintance.counted agent.config.regularUpdate known.memory state fresh
        known.weigh agent.base.values state counted) with
      | .ok known' => (.ok (), { agent with experts := agent.experts.insert id known' })
      | .error e => (.error (.layout e), { agent with experts := agent.experts.insert id known }) := by
  rw [review, answer_bind, answer_set]
  dsimp only
  rw [Acquaintance.counted]
  split
  · rw [answer_bind, Step.answer_ofLayout]
    rcases known.memory.get state with e | counted
    · rfl
    · exact answer_settle agent state id known counted
  · exact answer_settle agent state id known fresh

/-- Once what the expert said can be remembered, it stays remembered whatever comes of the review. -/
theorem answer_judge_of_remember {trial : Trial α} {fresh : Option Assignment} {id : ExpertId}
    {agent : TrustAgent α γ} {known : Acquaintance α} (h : agent.experts.get? id = some known)
    {memory : StateTable (Option Assignment)} (stored : known.remember trial.state fresh = .ok memory) :
    answer (judge trial id fresh) agent =
      match (do
        let counted ← Acquaintance.counted agent.config.regularUpdate memory trial.state fresh
        Acquaintance.weigh agent.base.values trial.state counted { known with memory }) with
      | .ok known' => (.ok (), { agent with experts := agent.experts.insert id known' })
      | .error e =>
        (.error (.layout e), { agent with experts := agent.experts.insert id { known with memory } }) := by
  rw [judge, answer_get_bind, h]
  cases fresh with
  | none =>
    cases stored
    exact answer_review agent trial.state id none known agent
  | some advice =>
    dsimp only [Acquaintance.remember] at stored ⊢
    rw [answer_bind, Step.answer_ofLayout]
    rcases set : known.memory.set trial.state (some advice) with e | ⟨old, table⟩
    · rw [set] at stored
      cases stored
    · rw [set] at stored
      cases stored
      exact answer_review agent trial.state id (some advice) { known with memory := table } agent

/-- What cannot be remembered is not judged. -/
theorem answer_judge_of_refused {trial : Trial α} {fresh : Option Assignment} {id : ExpertId}
    {agent : TrustAgent α γ} {known : Acquaintance α} (h : agent.experts.get? id = some known)
    {e : LayoutError} (refused : known.remember trial.state fresh = .error e) :
    answer (judge trial id fresh) agent = (.error (.layout e), agent) := by
  rw [judge, answer_get_bind, h]
  cases fresh with
  | none => cases refused
  | some advice =>
    dsimp only [Acquaintance.remember] at refused ⊢
    rw [answer_bind, Step.answer_ofLayout]
    rcases set : known.memory.set trial.state (some advice) with e' | ⟨old, table⟩
    · rw [set] at refused
      cases refused
      rfl
    · rw [set] at refused
      cases refused

/-- To judge is to study what is kept about the expert. -/
theorem answer_judge (trial : Trial α) (fresh : Option Assignment) {id : ExpertId}
    {agent : TrustAgent α γ} {known : Acquaintance α} (h : agent.experts.get? id = some known) :
    ∃ experts, answer (judge trial id fresh) agent =
        match known.study agent.base.values agent.config.regularUpdate trial fresh with
        | .ok known' => (.ok (), { agent with experts := agent.experts.insert id known' })
        | .error e => (.error (.layout e), { agent with experts }) := by
  rw [Acquaintance.study]
  rcases stored : known.remember trial.state fresh with e | memory
  · exact ⟨agent.experts, answer_judge_of_refused h stored⟩
  · exact ⟨_, answer_judge_of_remember h stored⟩

/-! ## Learning -/

/-- Nothing but what is kept about experts has changed. -/
structure Same (before after : TrustAgent α γ) : Prop where
  base : after.base = before.base
  config : after.config = before.config

instance : Std.Refl (Same : TrustAgent α γ → TrustAgent α γ → Prop) := ⟨fun _ => ⟨rfl, rfl⟩⟩

instance : IsTrans (TrustAgent α γ) Same :=
  ⟨fun _ _ _ h k => ⟨k.base.trans h.base, k.config.trans h.config⟩⟩

/-- All that judging changes is what is kept about experts, whether it goes well or not. -/
theorem exists_judge (trial : Trial α) (id : ExpertId) (fresh : Option Assignment)
    (agent : TrustAgent α γ) :
    ∃ experts, (answer (judge trial id fresh) agent).2 = { agent with experts } := by
  rcases h : agent.experts.get? id with _ | known
  · exact ⟨agent.experts, congrArg Prod.snd (judge_of_unknown h)⟩
  · obtain ⟨experts, run⟩ := answer_judge trial fresh h
    rw [run]
    split
    · exact ⟨_, rfl⟩
    · exact ⟨experts, rfl⟩

theorem judge_same (trial : Trial α) (id : ExpertId) (fresh : Option Assignment) :
    Step.Keeps (Same : TrustAgent α γ → _ → Prop) (judge trial id fresh) := by
  intro agent
  obtain ⟨experts, e⟩ := exists_judge trial id fresh agent
  rw [e]
  exact ⟨rfl, rfl⟩

theorem judge_eq_ok {trial : Trial α} {id : ExpertId} {fresh : Option Assignment}
    {agent after : TrustAgent α γ} {known : Acquaintance α}
    (h : agent.experts.get? id = some known)
    (run : answer (judge trial id fresh) agent = (.ok (), after)) :
    ∃ known', known.study agent.base.values agent.config.regularUpdate trial fresh = .ok known' ∧
      after = { agent with experts := agent.experts.insert id known' } := by
  obtain ⟨experts, judged⟩ := answer_judge trial fresh h
  rw [judged] at run
  rcases hs : known.study agent.base.values agent.config.regularUpdate trial fresh with e | known'
  · rw [hs] at run
    cases run
  · rw [hs] at run
    cases run
    exact ⟨known', rfl, rfl⟩

/-- A round of judging takes the advice of each expert into what is kept about that expert. -/
theorem judges_eq_ok {trial : Trial α} {fresh : ExpertId → Option Assignment} {ids : List ExpertId}
    (nodup : ids.Nodup) {agent after : TrustAgent α γ}
    (run : answer (ids.forM fun id => judge trial id (fresh id)) agent = (.ok (), after)) :
    Same agent after ∧ (∀ id ∉ ids, after.experts.get? id = agent.experts.get? id) ∧
      ∀ id ∈ ids, ∀ known, agent.experts.get? id = some known → ∃ known',
        known.study agent.base.values agent.config.regularUpdate trial (fresh id) = .ok known' ∧
          after.experts.get? id = some known' := by
  induction ids generalizing agent with
  | nil =>
    cases run
    exact ⟨⟨rfl, rfl⟩, fun _ _ => rfl, fun _ h => absurd h List.not_mem_nil⟩
  | cons head rest ih =>
    rw [List.nodup_cons] at nodup
    obtain ⟨⟨⟩, between, first, run⟩ : ∃ _ between,
        answer (judge trial head (fresh head)) agent = (.ok (), between) ∧
          answer (rest.forM fun id => judge trial id (fresh id)) between = (.ok (), after) :=
      answer_bind_ok.1 run
    have same : Same agent between := by
      have := judge_same trial head (fresh head) agent
      rwa [first] at this
    -- judging one expert leaves what is kept about the others
    have others : ∀ id, id ≠ head → between.experts.get? id = agent.experts.get? id := by
      intro id ne
      rcases h : agent.experts.get? head with _ | known
      · rw [judge_of_unknown h] at first
        cases first; rfl
      · obtain ⟨known', -, rfl⟩ := judge_eq_ok h first
        exact (NameMap.get?_insert ..).trans (if_neg ne.symm)
    obtain ⟨same', apart, each⟩ := ih nodup.2 run
    refine ⟨Trans.trans same same', fun id hid => ?_, fun id hid known h => ?_⟩
    · obtain ⟨ne, out⟩ := not_or.1 fun h => hid (List.mem_cons.2 h)
      rw [apart id out, others id ne]
    · rcases List.mem_cons.1 hid with rfl | later
      · obtain ⟨known', studied, rfl⟩ := judge_eq_ok h first
        refine ⟨known', studied, ?_⟩
        rw [apart id nodup.1]
        exact (NameMap.get?_insert ..).trans (if_pos rfl)
      · have ne : id ≠ head := fun e => nodup.1 (e ▸ later)
        rw [← same.base, ← same.config]
        exact each id later known ((others id ne).trans h)

/-- A lesson that went well moved the learner by the trial, and what is kept about each expert by
the expert's own advice. -/
theorem learn_eq_ok {trial : Trial α} {advice : AdviceBundle} {agent after : TrustAgent α γ}
    (run : answer (learn trial advice) agent = (.ok (), after)) :
    (∃ value, agent.base.values.update trial.state trial.action trial.reward =
        .ok (value, after.base.values)) ∧ after.config = agent.config ∧
      ∀ id known, agent.experts.get? id = some known → ∃ known',
        known.study after.base.values agent.config.regularUpdate trial (advice.advice? id) =
            .ok known' ∧
          after.experts.get? id = some known' := by
  rw [learn, answer_get_bind] at run
  split at run
  next => cases run
  next =>
    rw [answer_bind, answer_modify] at run
    dsimp only at run
    rw [answer_bind, Step.answer_within, GreedyLearner.answer_learn] at run
    dsimp only at run
    rcases moved : agent.base.values.update trial.state trial.action trial.reward with e | ⟨v, values⟩
    · rw [moved] at run
      cases run
    · rw [moved] at run
      obtain ⟨same, -, each⟩ := judges_eq_ok agent.experts.nodup_names run
      have learned : after.base.values = values := congrArg GreedyLearner.values same.base
      refine ⟨⟨v, by rw [learned]⟩, same.config, fun id known h => ?_⟩
      rw [learned]
      exact each id (NameMap.mem_names.2 ⟨known, h⟩) known h

/-- All that a lesson changes are the learner, which would be reset to what it was, the count and what is
kept about experts, whether it goes well or not. -/
theorem learn_keeps {R : TrustAgent α γ → TrustAgent α γ → Prop} [Std.Refl R]
    [IsTrans (TrustAgent α γ) R]
    (learning : ∀ (agent : TrustAgent α γ) (learned count : Nat) (values : ActionValues α)
      (experts : NameMap (Acquaintance α)), values.reset = agent.base.values.reset →
      R agent { agent with base := { agent.base with learned := count, values }, learned, experts })
    (trial : Trial α) (advice : AdviceBundle) :
    Step.Keeps R (learn trial advice : Step (TrustAgent α γ) Unit) := by
  refine Step.Keeps.bind .get fun agent => ?_
  split
  · exact .throw _
  · refine Step.Keeps.bind (fun agent =>
      learning agent _ agent.base.learned agent.base.values agent.experts rfl) fun _ => ?_
    refine Step.Keeps.bind (fun agent => ?_) fun _ => .forM fun id _ agent => ?_
    · have same := GreedyLearner.reset_learn trial agent.base
      rw [Step.answer_within]
      rw [GreedyLearner.answer_learn] at same ⊢
      rcases moved : agent.base.values.update trial.state trial.action trial.reward with e | ⟨v, values⟩
      · exact learning agent agent.learned _ agent.base.values agent.experts rfl
      · rw [moved] at same
        exact learning agent agent.learned _ values agent.experts same
    · obtain ⟨experts, e⟩ := exists_judge trial id (advice.advice? id) agent
      rw [e]
      exact learning agent agent.learned agent.base.learned agent.base.values experts rfl

/-- The frame of the estimates and the settings are the same. -/
structure Framed (before after : TrustAgent α γ) : Prop where
  reset : after.base.values.reset = before.base.values.reset
  config : after.config = before.config

instance : Std.Refl (Framed : TrustAgent α γ → TrustAgent α γ → Prop) := ⟨fun _ => ⟨rfl, rfl⟩⟩

instance : IsTrans (TrustAgent α γ) Framed :=
  ⟨fun _ _ _ h k => ⟨k.reset.trans h.reset, k.config.trans h.config⟩⟩

theorem act_framed [RandomSource γ] (state : Assignment) (mayExplore : Bool) :
    Step.Keeps Framed (act state mayExplore : Step (TrustAgent α γ) Assignment) := by
  intro agent
  have kept := act_kept state mayExplore agent
  exact ⟨congrArg ActionValues.reset kept.values, kept.config⟩

/-- To learn keeps the frame of the estimates and the settings, whether it goes well or not. -/
theorem learn_framed (trial : Trial α) (advice : AdviceBundle) :
    Step.Keeps (Framed : TrustAgent α γ → _ → Prop) (learn trial advice) :=
  learn_keeps (fun _ _ _ _ _ same => ⟨same, rfl⟩) trial advice

end TrustAgent

end Counsel
