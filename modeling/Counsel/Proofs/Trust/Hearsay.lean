/-
Where the actions of an agent come from. An agent names joint actions of its learner and what it has heard;
so if all of these are fair, in whatever sense, then so is every action that it names (`Agent.Honest`), as
long as it does not fail. That holds of a learner (`GreedyLearner.honest`), of an agent that weighs advice
(`TrustAgent.honest`) and of one that follows it (`Follower.honest`).
-/
import Counsel.Proofs.Trust.Forgetting

namespace Counsel

open Outcome

variable {α γ κ : Type} {fair : Assignment → Prop} {state : Assignment}

/-- An invariant under which an agent names fair actions only, as long as the advice that it hears is
fair. -/
structure Agent.Honest [Agent κ α] (fair : Assignment → Prop) (kept : κ → Prop) : Prop where
  act : ∀ state explore, Step.Ensures kept (Agent.act state explore) fun action agent =>
    kept agent ∧ fair action
  learn : ∀ trial {advice : AdviceBundle}, (∀ id, ∀ a ∈ advice.advice? id, fair a) →
    Step.Ensures kept (Agent.learn trial advice) fun _ => kept

/-! ## Memories -/

/-- All that is remembered is fair. -/
def StateTable.Fair (fair : Assignment → Prop) (memory : StateTable (Option Assignment)) : Prop :=
  ∀ i a, memory.at? i = some (some a) → fair a

namespace StateTable

variable {memory after : StateTable (Option Assignment)} {old : Option Assignment}

theorem fair_replicate {layout : Layout} : Fair fair (replicate layout none) :=
  fun _ _ held => absurd held not_held_replicate

theorem Fair.get (remembered : memory.Fair fair) {said : Option Assignment}
    (read : memory.get state = .ok said) : ∀ a ∈ said, fair a := by
  obtain ⟨i, -, held⟩ := held_of_get read
  exact fun a here => remembered i a (held.trans (congrArg some here))

theorem Fair.set (remembered : memory.Fair fair) {a : Assignment} (fair_a : fair a)
    (stored : memory.set state (some a) = .ok (old, after)) : after.Fair fair := by
  obtain ⟨i, found, rfl⟩ := set_eq_ok stored
  intro j b held
  rw [at?_setAt (Layout.indexOf_lt found)] at held
  split at held
  · cases held
    exact fair_a
  · exact remembered j b held

end StateTable

variable [Scalar α] [RandomSource γ]

/-! ## The learner -/

namespace GreedyLearner

/-- All joint actions of the learner are fair. -/
def Fair (fair : Assignment → Prop) (learner : GreedyLearner α γ) : Prop :=
  ∀ a ∈ learner.values.actions.assignments, fair a

omit [Scalar α] in
theorem randomAction_ensures : Step.Ensures (Fair (α := α) (γ := γ) fair) randomAction
    fun action learner => learner.Fair fair ∧ fair action := by
  refine Step.Ensures.read_bind fun learner able => ?_
  have drawn : Fair fair
      { learner with source := (RandomSource.below learner.values.actions.size learner.source).2 } := able
  refine Step.Ensures.bind (Step.Yields.set drawn).ensures fun _ => ?_
  exact Step.Ensures.ofLayout fun action named _ k => ⟨k, able action (Layout.mem_assignments_of_eq named)⟩

theorem act_ensures (state : Assignment) (explore : Bool) :
    Step.Ensures (Fair (α := α) (γ := γ) fair) (act state explore) fun action learner =>
      learner.Fair fair ∧ fair action := by
  refine Step.Ensures.read_bind fun learner able => ?_
  refine Step.Ensures.ofLayout_bind fun best found => ?_
  obtain ⟨values, -, found⟩ := bind_eq_ok.1 found
  obtain ⟨action, named, found⟩ := bind_eq_ok.1 found
  cases found
  dsimp only
  split
  · exact Step.Ensures.pure fun _ k => ⟨k, able action (Layout.mem_assignments_of_eq named)⟩
  · exact randomAction_ensures

theorem learn_ensures (trial : Trial α) :
    Step.Ensures (Fair (γ := γ) fair) (learn trial) fun _ learner => learner.Fair fair := by
  intro learner able u after ran
  have same := learn_resetAlike trial learner
  rw [ran] at same
  have actions : after.values.actions = learner.values.actions :=
    congrArg (fun learner => learner.values.actions) same
  exact fun a ha => able a (actions ▸ ha)

omit [Scalar α] in
theorem Fair.reset {learner : GreedyLearner α γ} (able : learner.Fair fair) : learner.reset.Fair fair :=
  able

/-- The joint actions of a learner are over the names that it is made for. -/
theorem fair_of_ofConfig {states actions layout : Layout} {learning : LearnerConfig α} {trials : Nat}
    {seed : UInt64} {learner : GreedyLearner α γ} (within : actions.names ⊆ layout.names)
    (made : ofConfig states actions learning trials seed = .ok learner) : learner.Fair layout.Covers := by
  unfold ofConfig at made
  split at made
  · cases made
  · obtain ⟨values, built, made⟩ := bind_eq_ok.1 made
    cases made
    obtain ⟨-, _, -, rfl⟩ := ActionValues.ofConfig_eq_ok.1 built
    exact fun a listed name value held => within (Layout.covers_of_mem_assignments listed name value held)

theorem honest : Agent.Honest fair (Fair (α := α) (γ := γ) fair) where
  act := act_ensures
  learn trial _ _ := learn_ensures trial

end GreedyLearner

/-! ## Weighing advice -/

namespace TrustAgent

/-- All joint actions of the learner and all advice that is remembered are fair. -/
structure Fair (fair : Assignment → Prop) (agent : TrustAgent α γ) : Prop where
  base : agent.base.Fair fair
  memory : ∀ id known, agent.experts.get? id = some known → known.memory.Fair fair

omit [RandomSource γ] in
/-- What is remembered for a state is fair. -/
theorem Fair.advices {agent : TrustAgent α γ} (able : agent.Fair fair) {advices : List (α × Assignment)}
    (listed : agent.advices state = .ok advices) : ∀ e ∈ advices, fair e.2 := by
  obtain ⟨-, rfl⟩ := advices_eq_ok.1 listed
  intro e he
  obtain ⟨known, hk, -, remembered⟩ := mem_heard.1 he
  obtain ⟨id, found⟩ := NameMap.mem_values.1 hk
  exact (able.memory id known found).get remembered e.2 rfl

omit [RandomSource γ] in
theorem Fair.mostReliable {agent : TrustAgent α γ} (able : agent.Fair fair)
    {best : Option (α × Assignment)} (weighed : agent.mostReliable state = .ok best) :
    ∀ e ∈ best, fair e.2 := by
  obtain ⟨advices, listed, weighed⟩ := bind_eq_ok.1 weighed
  cases weighed
  intro e he
  rcases mem_of_foldl_moreReliable he with mem | none
  · exact able.advices listed e mem
  · cases none

theorem fraction_ensures : Step.Ensures (Fair (α := α) (γ := γ) fair) fraction fun _ => Fair fair :=
  (fraction_yields fun _ _ k => { k with }).ensures

omit [Scalar α] in
theorem randomAction_ensures : Step.Ensures (Fair (α := α) (γ := γ) fair) randomAction
    fun action agent => agent.Fair fair ∧ fair action := by
  refine Step.Ensures.read_bind fun agent able => ?_
  have drawn : Fair fair
      { agent with source := (RandomSource.below agent.actions.size agent.source).2 } := { able with }
  refine Step.Ensures.bind (Step.Yields.set drawn).ensures fun _ => ?_
  exact Step.Ensures.ofLayout fun action named _ k =>
    ⟨k, able.base action (Layout.mem_assignments_of_eq named)⟩

theorem exploit_ensures (state : Assignment) :
    Step.Ensures (Fair (α := α) (γ := γ) fair) (exploit state) fun action agent =>
      agent.Fair fair ∧ fair action :=
  (GreedyLearner.act_ensures state false).within (fun _ k => k.base) fun _ k _ _ acted =>
    ⟨{ k with base := acted.1 }, acted.2⟩

/-- A choice of an action, unless a draw lets it be a random one. -/
theorem draw_ensures {p : α → Prop} [DecidablePred p] {action : Assignment} (fair_action : fair action) :
    Step.Ensures (Fair (γ := γ) fair)
      (fraction >>= fun u => if p u then pure action else randomAction) fun action agent =>
        agent.Fair fair ∧ fair action := by
  refine fraction_ensures.bind fun u => ?_
  split
  · exact Step.Ensures.pure fun _ k => ⟨k, fair_action⟩
  · exact randomAction_ensures

theorem followPosterior_ensures (state : Assignment) :
    Step.Ensures (Fair (α := α) (γ := γ) fair) (followPosterior state) fun action agent =>
      agent.Fair fair ∧ fair action := by
  refine Step.Ensures.read_bind fun agent able => Step.Ensures.ofLayout_bind fun posterior _ => ?_
  cases posterior with
  | none => exact randomAction_ensures
  | some weights =>
    dsimp only
    split
    · exact randomAction_ensures
    · exact Step.Ensures.ofLayout_bind fun action named =>
        draw_ensures (able.base action (Layout.mem_assignments_of_eq named))

theorem followBest_ensures (state : Assignment) :
    Step.Ensures (Fair (α := α) (γ := γ) fair) (followBest state) fun action agent =>
      agent.Fair fair ∧ fair action := by
  refine Step.Ensures.read_bind fun agent able => Step.Ensures.ofLayout_bind fun best weighed => ?_
  cases best with
  | none => exact randomAction_ensures
  | some best => exact draw_ensures (able.mostReliable weighed best rfl)

theorem explore_ensures (state : Assignment) :
    Step.Ensures (Fair (α := α) (γ := γ) fair) (explore state) fun action agent =>
      agent.Fair fair ∧ fair action := by
  refine Step.Ensures.read_bind fun agent able => ?_
  split
  · exact Step.Ensures.ofLayout fun action named _ k =>
      ⟨k, able.base action (Layout.mem_assignments_of_eq named)⟩
  · split
    · exact followPosterior_ensures state
    · exact followBest_ensures state

theorem act_ensures (state : Assignment) (mayExplore : Bool) :
    Step.Ensures (Fair (α := α) (γ := γ) fair) (act state mayExplore) fun action agent =>
      agent.Fair fair ∧ fair action := by
  have noted : Step.Ensures (Fair (α := α) (γ := γ) fair) (modify note) fun _ => Fair fair :=
    (Step.Yields.change fun _ able => { able with }).ensures
  refine noted.bind fun _ => ?_
  split
  · exact exploit_ensures state
  · refine fraction_ensures.bind fun u => Step.Ensures.read_bind fun agent able => ?_
    split
    · exact exploit_ensures state
    · exact explore_ensures state

/-- What is remembered after an expert spoke is what was remembered before, or what it said. -/
theorem fair_study {known after : Acquaintance α} (remembered : known.memory.Fair fair)
    {values : ActionValues α} {regular : Bool} {trial : Trial α} {fresh : Option Assignment}
    (fresh_of : ∀ a ∈ fresh, fair a) (studied : known.study values regular trial fresh = .ok after) :
    after.memory.Fair fair := by
  rcases Acquaintance.remember_eq_ok.1 (Acquaintance.remember_of_study studied) with
    ⟨-, same⟩ | ⟨a, old, said, set⟩
  · rwa [same]
  · exact remembered.set (fresh_of a said) set

omit [RandomSource γ] in
theorem judge_ensures (trial : Trial α) (id : ExpertId) {fresh : Option Assignment}
    (fresh_of : ∀ a ∈ fresh, fair a) :
    Step.Ensures (Fair (γ := γ) fair) (judge trial id fresh) fun _ => Fair fair := by
  intro agent able _ after ran
  rcases found : agent.experts.get? id with _ | known
  · cases (judge_of_unknown found).symm.trans ran
    exact able
  · obtain ⟨known', studied, rfl⟩ := judge_eq_ok found ran
    refine ⟨able.base, fun other held there => ?_⟩
    rw [NameMap.get?_insert] at there
    split at there
    · cases there
      exact fair_study (able.memory id known found) fresh_of studied
    · exact able.memory other held there

theorem learn_ensures (trial : Trial α) {advice : AdviceBundle}
    (heard : ∀ id, ∀ a ∈ advice.advice? id, fair a) :
    Step.Ensures (Fair (γ := γ) fair) (learn trial advice) fun _ => Fair fair := by
  refine Step.Ensures.read_bind fun agent _ => ?_
  split
  · exact fun _ _ _ _ ran => nomatch ran
  · have counted : Step.Ensures (Fair (γ := γ) fair)
        (modify fun agent : TrustAgent α γ => { agent with learned := agent.learned + 1 })
        fun _ => Fair fair := (Step.Yields.change fun _ able => { able with }).ensures
    have moved : Step.Ensures (Fair (γ := γ) fair)
        ((GreedyLearner.learn trial).within (fun agent : TrustAgent α γ => agent.base)
          fun agent base => { agent with base }) fun _ => Fair fair :=
      (GreedyLearner.learn_ensures trial).within (fun _ k => k.base) fun _ k _ _ base =>
        { k with base := base }
    exact counted.bind fun _ => moved.bind fun _ =>
      Step.Ensures.forM fun id _ => judge_ensures trial id (heard id)

theorem base_of_ofConfig {base : GreedyLearner α γ} {config : TrustConfig α} {trials : Nat}
    {agent : TrustAgent α γ} (made : ofConfig base config trials = .ok agent) : agent.base = base := by
  unfold ofConfig at made
  split at made
  · cases made
  · cases made
    rfl

/-- Nothing is remembered after a reset. -/
theorem fair_reset {agent : TrustAgent α γ} (able : agent.base.Fair fair) (ids : List ExpertId) :
    (agent.reset ids).Fair fair where
  base := able.reset
  memory id known found := by
    obtain ⟨_, -, e⟩ := List.mem_map.1 (NameMap.mem_of_get?_ofList found)
    cases e
    exact StateTable.fair_replicate

theorem honest [Beta.Ranking α] : Agent.Honest fair (Fair (α := α) (γ := γ) fair) where
  act := act_ensures
  learn trial _ heard := learn_ensures trial heard

end TrustAgent

/-! ## Following advice -/

namespace Follower

/-- All joint actions of the learner and all advice that is remembered are fair. -/
structure Fair (fair : Assignment → Prop) (agent : Follower α γ) : Prop where
  base : agent.base.Fair fair
  memory : ∀ id table, agent.memory.get? id = some table → table.Fair fair

omit [Scalar α] [RandomSource γ] in
/-- What is remembered for a state is fair. -/
theorem Fair.advices {agent : Follower α γ} (able : agent.Fair fair) {advices : List Assignment}
    (listed : agent.advices state = .ok advices) : ∀ a ∈ advices, fair a := by
  obtain ⟨entries, read, listed⟩ := bind_eq_ok.1 listed
  cases listed
  intro a ha
  obtain ⟨said, mem, here⟩ := List.mem_filterMap.1 ha
  obtain ⟨table, ht, read⟩ := forall₂_right_mem (mapM_eq_ok.1 read) mem
  obtain ⟨id, found⟩ := NameMap.mem_values.1 ht
  exact (able.memory id table found).get read a here

theorem act_ensures (state : Assignment) (explore : Bool) :
    Step.Ensures (Fair (α := α) (γ := γ) fair) (act state explore) fun action agent =>
      agent.Fair fair ∧ fair action := by
  refine Step.Ensures.read_bind fun agent able => Step.Ensures.ofLayout_bind fun advices listed => ?_
  split
  next =>
    exact (GreedyLearner.act_ensures state explore).within (fun _ k => k.base) fun _ k _ _ acted =>
      ⟨{ k with base := acted.1 }, acted.2⟩
  next some_advice =>
    have pos : 0 < advices.length :=
      List.length_pos_iff.2 fun none => some_advice (List.isEmpty_iff.2 none)
    have lt := RandomSource.below_lt advices.length agent.source pos
    have drawn : Fair fair
        { agent with source := (RandomSource.below advices.length agent.source).2 } := { able with }
    refine Step.Ensures.bind (Step.Yields.set drawn).ensures fun _ => Step.Ensures.pure fun _ k => ⟨k, ?_⟩
    exact List.getD_eq_getElem advices .empty lt ▸ able.advices listed _ (List.getElem_mem lt)

omit [Scalar α] [RandomSource γ] in
theorem remember_ensures (state : Assignment) {entry : ExpertId × Assignment} (said : fair entry.2) :
    Step.Ensures (Fair (α := α) (γ := γ) fair) (remember state entry) fun _ => Fair fair := by
  refine Step.Ensures.read_bind fun agent able => ?_
  split
  next => exact fun _ _ _ _ ran => nomatch ran
  next table found =>
    refine Step.Ensures.ofLayout_bind fun ⟨old, after⟩ stored => ?_
    have remembered : Fair fair { agent with memory := agent.memory.insert entry.1 after } := by
      refine ⟨able.base, fun other table' held => ?_⟩
      rw [NameMap.get?_insert] at held
      split at held
      · cases held
        exact (able.memory _ table found).set said stored
      · exact able.memory other table' held
    exact (Step.Yields.set remembered).ensures

theorem learn_ensures (trial : Trial α) {advice : AdviceBundle}
    (heard : ∀ id, ∀ a ∈ advice.advice? id, fair a) :
    Step.Ensures (Fair (γ := γ) fair) (learn trial advice) fun _ => Fair fair := by
  refine (Step.Ensures.forM fun entry given => ?_).bind fun _ =>
    (GreedyLearner.learn_ensures trial).within (fun _ k => k.base) fun _ k _ _ base =>
      { k with base := base }
  exact remember_ensures trial.state (heard entry.1 entry.2 (AdviceBundle.mem_given.1 given))

omit [Scalar α] in
/-- Nothing is remembered after a reset. -/
theorem fair_reset {agent : Follower α γ} (able : agent.base.Fair fair) (ids : List ExpertId) :
    (agent.reset ids).Fair fair where
  base := able.reset
  memory id table found := by
    obtain ⟨_, -, e⟩ := List.mem_map.1 (NameMap.mem_of_get?_ofList found)
    cases e
    exact StateTable.fair_replicate

theorem honest : Agent.Honest fair (Fair (α := α) (γ := γ) fair) where
  act := act_ensures
  learn trial _ heard := learn_ensures trial heard

end Follower

end Counsel
