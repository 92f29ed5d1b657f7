/-
What agents remember of their experts. Whatever comes of a lesson, all that it writes is what the experts
said, under the state of the trial (`TrustAgent.learn_written`, `Follower.learn_written`). An act reads what
is remembered for its state and nothing else, so that it does not notice other memories that say the same
about that state (`TrustAgent.act_ignores`, `Follower.act_ignores`).
-/
import Counsel.Proofs.StateTable
import Counsel.Proofs.Trust.Requests

namespace Counsel

open Outcome

/-! ## Steps that do not notice a change -/

namespace Step

variable {σ β δ : Type}

/-- The answers of a step for each of some items, one after the other, whether it goes well or not. -/
def replies {ι : Type} (step : ι → Step σ β) : List ι → σ → List (Except Error β)
  | [], _ => []
  | i :: rest, s => (Outcome.answer (step i) s).1 :: replies step rest (Outcome.answer (step i) s).2

/-- From some states the step goes the same way if they are changed by `f`, and keeps that property. -/
def Ignores (kept : σ → Prop) (f : σ → σ) (step : Step σ β) : Prop :=
  ∀ s, kept s → kept (Outcome.answer step s).2 ∧
    Outcome.answer step (f s) = ((Outcome.answer step s).1, f (Outcome.answer step s).2)

variable {kept : σ → Prop} {f : σ → σ}

theorem Ignores.pure (b : β) : Ignores kept f (Pure.pure b : Step σ β) := fun _ hs => ⟨hs, rfl⟩

theorem Ignores.ofLayout (result : Except LayoutError β) : Ignores kept f (Step.ofLayout result) := by
  intro s hs
  rw [answer_ofLayout, answer_ofLayout]
  exact ⟨hs, rfl⟩

theorem Ignores.bind {x : Step σ β} {g : β → Step σ δ} (hx : Ignores kept f x)
    (hg : ∀ b, Ignores kept f (g b)) : Ignores kept f (x >>= g) := by
  intro s hs
  obtain ⟨after, same⟩ := hx s hs
  rw [answer_bind, answer_bind, same]
  rcases ran : Outcome.answer x s with ⟨r, t⟩
  rw [ran] at after
  cases r with
  | error e => exact ⟨after, rfl⟩
  | ok b => exact hg b t after

/-- What is read of the state is not what was changed. -/
theorem Ignores.read_bind {g : σ → Step σ δ} (h : ∀ s, kept s → g (f s) = g s ∧ Ignores kept f (g s)) :
    Ignores kept f (MonadState.get >>= g) := by
  intro s hs
  obtain ⟨same, ignores⟩ := h s hs
  rw [answer_get_bind, answer_get_bind, same]
  exact ignores s hs

/-- A course of steps that do not notice the change gets the same answers. -/
theorem Ignores.replies_eq {ι : Type} {step : ι → Step σ β} {items : List ι}
    (h : ∀ i ∈ items, Ignores kept f (step i)) {s : σ} (hs : kept s) :
    replies step items (f s) = replies step items s := by
  induction items generalizing s with
  | nil => rfl
  | cons i rest ih =>
    obtain ⟨after, same⟩ := h i List.mem_cons_self s hs
    rw [replies, replies, same, ih (fun j hj => h j (List.mem_cons_of_mem _ hj)) after]

end Step

/-! ## Recollections -/

/-- The memories of an agent, by the expert whose advice is in them. -/
abbrev Recollections := ExpertId → Option (StateTable (Option Assignment))

namespace Recollections

/-- What an expert is remembered to have said about a state. -/
def recalled (memories : Recollections) (id : ExpertId) (state : Assignment) :
    Except Error (Option Assignment) :=
  match memories id with
  | none => .error (.unknownExpert id)
  | some memory => (memory.get state).mapError .layout

/-- All memories are kept by these states. -/
def Keyed (states : Layout) (memories : Recollections) : Prop :=
  ∀ id memory, memories id = some memory → memory.layout = states

variable {states : Layout} {state other : Assignment} {advice : AdviceBundle}
  {before memories : Recollections} {id : ExpertId} {memory : StateTable (Option Assignment)}

theorem recalled_of_some (held : memories id = some memory) :
    memories.recalled id state = (memory.get state).mapError .layout := by
  rw [recalled, held]

/-- Something, if only silence, is remembered where there is a memory that reads the state. -/
theorem exists_recalled : (∃ said, memories.recalled id state = .ok said) ↔
    ∃ memory, memories id = some memory ∧ memory.layout.Reads state := by
  rcases held : memories id with _ | memory
  · simp [recalled, held]
  · simp [recalled_of_some held, mapError_eq_ok, StateTable.get_eq_ok_iff]

theorem recalled_update_self (memories : Recollections) (id : ExpertId)
    (memory : StateTable (Option Assignment)) (state : Assignment) :
    recalled (Function.update memories id (some memory)) id state = (memory.get state).mapError .layout :=
  recalled_of_some (Function.update_self ..)

theorem recalled_update_of_ne {other : ExpertId} (ne : other ≠ id) (state : Assignment) :
    recalled (Function.update memories id (some memory)) other state = memories.recalled other state := by
  rw [recalled, recalled, Function.update_of_ne ne]

/-- All that may have been written in a trial with some advice: each expert is remembered as before, or for
the state of the trial with what it said there. -/
structure Written (states : Layout) (state : Assignment) (advice : AdviceBundle)
    (before after : Recollections) : Prop where
  keyed : after.Keyed states
  recalled : ∀ id other, after.recalled id other = before.recalled id other ∨
    states.Agree state other ∧ ∃ a, advice.advice? id = some a ∧ after.recalled id other = .ok (some a)

theorem Written.refl (state : Assignment) (advice : AdviceBundle) (keyed : before.Keyed states) :
    Written states state advice before before :=
  ⟨keyed, fun _ _ => .inl rfl⟩

/-- What is written for a state is read for it, and other states are as they were. -/
theorem get_of_set {a : Assignment} {old : Option Assignment} {after : StateTable (Option Assignment)}
    (stored : memory.set state (some a) = .ok (old, after)) :
    after.layout = memory.layout ∧ ∀ other, after.get other =
      if memory.layout.Agree state other then .ok (some a) else memory.get other := by
  obtain ⟨i, found, rfl⟩ := StateTable.set_eq_ok stored
  exact ⟨rfl, fun other => StateTable.get_setAt found _⟩

/-- One more piece of advice. -/
theorem Written.update (written : Written states state advice before memories)
    (held : memories id = some memory) {a : Assignment} (said : advice.advice? id = some a)
    {old : Option Assignment} {after : StateTable (Option Assignment)}
    (stored : memory.set state (some a) = .ok (old, after)) :
    Written states state advice before (Function.update memories id (some after)) := by
  obtain ⟨layout, read⟩ := get_of_set stored
  rw [written.keyed id memory held] at layout read
  refine ⟨fun other table found => ?_, fun other at_other => ?_⟩
  · by_cases same : other = id
    · subst same
      rw [Function.update_self] at found
      cases found
      exact layout
    · rw [Function.update_of_ne same] at found
      exact written.keyed other table found
  · by_cases same : other = id
    · subst same
      rw [recalled_update_self, read]
      split
      next here => exact .inr ⟨here, a, said, rfl⟩
      next =>
        rw [← recalled_of_some held]
        exact written.recalled other at_other
    · rw [recalled_update_of_ne same]
      exact written.recalled other at_other

/-- Once what an expert said stands in its memory, it stays there. -/
theorem Written.recalled_of_said (written : Written states state advice before memories) {a : Assignment}
    (said : advice.advice? id = some a) (there : before.recalled id other = .ok (some a)) :
    memories.recalled id other = .ok (some a) := by
  rcases written.recalled id other with same | ⟨-, b, said', read⟩
  · rw [same, there]
  · cases said.symm.trans said'
    exact read

/-- For other states nothing has changed. -/
theorem Written.recalled_elsewhere (written : Written states state advice before memories)
    (apart : ¬ states.Agree state other) : memories.recalled id other = before.recalled id other :=
  (written.recalled id other).resolve_right fun h => apart h.1

/-- Memories that say the same about a state have the same content for it. -/
theorem get_getD_of_same {past : Recollections} (held : memories id = some memory)
    (same : memories.recalled id state = past.recalled id state) :
    ((past id).getD memory).get state = memory.get state := by
  rcases had : past id with _ | table
  · rfl
  · rw [recalled_of_some held, recalled_of_some had] at same
    show table.get state = _
    rcases now : memory.get state with e | said
    · rcases was : table.get state with e' | said'
      · rw [now, was] at same
        cases same
        rfl
      · rw [now, was] at same
        cases same
    · rw [now] at same
      exact mapError_eq_ok.1 same.symm

end Recollections

open Recollections

variable {α γ : Type} [Scalar α] {states actions : Layout} {trial : Trial α} {advice : AdviceBundle}
  {before : Recollections}

/-! ## Agents that weigh advice -/

namespace Acquaintance

omit [Scalar α] in
/-- What an expert says can be remembered wherever the state is read. -/
theorem exists_remember {known : Acquaintance α} {state : Assignment} (fresh : Option Assignment)
    (reads : known.memory.layout.Reads state) : ∃ memory, known.remember state fresh = .ok memory := by
  obtain ⟨i, hi⟩ := reads
  cases fresh with
  | none => exact ⟨known.memory, rfl⟩
  | some a =>
    obtain ⟨old, stored⟩ := StateTable.set_of_indexOf hi (some a)
    exact ⟨_, remember_eq_ok.2 (.inr ⟨a, old, rfl, stored⟩)⟩

end Acquaintance

namespace TrustAgent

/-- What is remembered of each expert. -/
def recollections (agent : TrustAgent α γ) : Recollections :=
  fun id => (agent.experts.get? id).map (·.memory)

omit [Scalar α] in
theorem remembered_eq_recalled (agent : TrustAgent α γ) (id : ExpertId) (state : Assignment) :
    agent.remembered id state = recalled agent.recollections id state := by
  rw [remembered, recalled, recollections]
  rcases agent.experts.get? id with _ | known <;> rfl

omit [Scalar α] in
theorem recollections_insert (agent : TrustAgent α γ) (id : ExpertId) (known : Acquaintance α) :
    recollections { agent with experts := agent.experts.insert id known } =
      Function.update agent.recollections id (some known.memory) := by
  funext other
  rw [recollections, NameMap.get?_insert_eq_update, Function.apply_update fun _ => Option.map _]
  rfl

/-- To judge an expert is to remember what it said, whatever comes of the judgement. -/
theorem recollections_judge {id : ExpertId} {fresh : Option Assignment} {agent : TrustAgent α γ}
    {known : Acquaintance α} (found : agent.experts.get? id = some known)
    {memory : StateTable (Option Assignment)} (stored : known.remember trial.state fresh = .ok memory) :
    (answer (judge trial id fresh) agent).2.recollections =
      Function.update agent.recollections id (some memory) := by
  rw [answer_judge_of_remember found stored]
  split
  next known' weighed =>
    obtain ⟨counted, -, weighed⟩ := bind_eq_ok.1 weighed
    rw [recollections_insert, Acquaintance.memory_of_weigh weighed]
  next => exact recollections_insert ..

/-- One expert is judged. -/
theorem judge_written (id : ExpertId) :
    Step.Keeps (Step.Retains fun agent : TrustAgent α γ =>
      Written states trial.state advice before agent.recollections)
      (judge trial id (advice.advice? id)) := by
  intro agent written
  rcases found : agent.experts.get? id with _ | known
  · rw [judge_of_unknown found]
    exact written
  · rcases stored : known.remember trial.state (advice.advice? id) with e | memory
    · rw [answer_judge_of_refused found stored]
      exact written
    · have held : agent.recollections id = some known.memory := congrArg _ found
      rw [recollections_judge found stored]
      rcases Acquaintance.remember_eq_ok.1 stored with ⟨-, rfl⟩ | ⟨a, old, said, set⟩
      · rwa [← held, Function.update_eq_self]
      · exact written.update held said set

/-- All that a lesson writes is what the experts said about the state of the trial, whether it goes well or
not. -/
theorem learn_written :
    Step.Keeps (Step.Retains fun agent : TrustAgent α γ =>
      Written states trial.state advice before agent.recollections) (learn trial advice) := by
  refine Step.Keeps.bind .get fun agent => ?_
  split
  · exact .throw _
  · refine Step.Keeps.bind (fun _ => id) fun _ => ?_
    refine Step.Keeps.bind (fun _ => id) fun _ => ?_
    exact .forM fun id _ => judge_written id

/-- An agent that came about keeps its memories by the states. -/
theorem Arises.keyed [RandomSource γ] {learning : LearnerConfig α} {config : TrustConfig α}
    {agent : TrustAgent α γ} (arises : agent.Arises states actions learning config) :
    Keyed states agent.recollections := by
  induction arises with
  | made arises made =>
    unfold ofConfig at made
    split at made
    · cases made
    · cases made
      intro id memory found
      simp [recollections] at found
  | @acted agent state mayExplore _ ih =>
    have kept := act_kept state mayExplore agent
    intro id memory found
    rw [recollections, kept.experts] at found
    exact ih id memory found
  | learned trial advice _ ih => exact (learn_written _ (Written.refl trial.state advice ih)).keyed
  | @reset agent experts arises _ =>
    have spans := ActionValues.spans_of_ofConfig arises.fresh.1
    intro id memory found
    obtain ⟨known, held, rfl⟩ := Option.map_eq_some_iff.1 found
    obtain ⟨_, -, e⟩ := List.mem_map.1 (NameMap.mem_of_get?_ofList held)
    cases e
    exact spans.states

/-! ### Acting -/

/-- The agent with the memories that another one has of the experts. -/
def withMemoriesOf (past agent : TrustAgent α γ) : TrustAgent α γ :=
  { agent with
    experts := agent.experts.mapEntries fun id known =>
      { known with memory := (past.recollections id).getD known.memory } }

section Ignores

variable [RandomSource γ] {past agent : TrustAgent α γ} {state : Assignment}

omit [RandomSource γ] in
theorem advices_withMemoriesOf (same : ∀ id, agent.remembered id state = past.remembered id state) :
    (withMemoriesOf past agent).advices state = agent.advices state := by
  have listed : ∀ e ∈ agent.experts.entries,
      ((past.recollections e.1).getD e.2.memory).get state = e.2.memory.get state := by
    intro e he
    have held : agent.recollections e.1 = some e.2.memory := by
      rw [recollections, NameMap.get?_eq_some.2 he]
      rfl
    exact get_getD_of_same held (by rw [← remembered_eq_recalled, ← remembered_eq_recalled, same])
  rw [advices, advices, withMemoriesOf, NameMap.values_mapEntries, NameMap.values, List.mapM_map,
    List.mapM_map]
  exact congrArg (· >>= _) (mapM_congr fun e he => by simp only [Function.comp_apply, listed e he])

omit [RandomSource γ] in
/-- What is thought of an expert does not depend on what is remembered of it. -/
theorem rho?_withMemoriesOf (id : ExpertId) : (withMemoriesOf past agent).rho? id = agent.rho? id := by
  rw [rho?, rho?, withMemoriesOf, NameMap.get?_mapEntries, Option.map_map]
  rfl

omit [RandomSource γ] in
theorem note_withMemoriesOf : (withMemoriesOf past agent).note = withMemoriesOf past agent.note := by
  simp only [note, rho?_withMemoriesOf]
  rfl

/-- The experts are known as they are to this agent. -/
def SameExperts (agent s : TrustAgent α γ) : Prop := s.experts = agent.experts

omit [Scalar α] [RandomSource γ] in
theorem SameExperts.remembered {s : TrustAgent α γ} (kept : agent.SameExperts s) (id : ExpertId)
    (state : Assignment) : s.remembered id state = agent.remembered id state := by
  rw [TrustAgent.remembered, TrustAgent.remembered, kept]

theorem fraction_ignores : Step.Ignores agent.SameExperts (withMemoriesOf past)
    (fraction : Step (TrustAgent α γ) α) := fun _ kept => ⟨kept, rfl⟩

omit [Scalar α] in
theorem randomAction_ignores : Step.Ignores agent.SameExperts (withMemoriesOf past)
    (randomAction : Step (TrustAgent α γ) Assignment) := by
  intro s kept
  rw [randomAction, answer_get_bind, answer_get_bind]
  simp only [answer_bind, answer_set, Step.answer_ofLayout]
  exact ⟨kept, rfl⟩

theorem exploit_ignores : Step.Ignores agent.SameExperts (withMemoriesOf past)
    (exploit state : Step (TrustAgent α γ) Assignment) := fun _ kept => ⟨kept, rfl⟩

variable (same : ∀ id, agent.remembered id state = past.remembered id state)
include same

theorem followPosterior_ignores : Step.Ignores agent.SameExperts (withMemoriesOf past)
    (followPosterior state : Step (TrustAgent α γ) Assignment) := by
  refine Step.Ignores.read_bind fun s kept => ⟨?_, ?_⟩
  · have alike := fun id => (kept.remembered id state).trans (same id)
    have weighed : (withMemoriesOf past s).posterior state = s.posterior state := by
      rw [posterior, posterior, advices_withMemoriesOf alike]
      rfl
    rw [weighed]
    rfl
  · refine Step.Ignores.bind (.ofLayout _) fun weights => ?_
    cases weights with
    | none => exact randomAction_ignores
    | some weights =>
      dsimp only
      split
      · exact randomAction_ignores
      · refine Step.Ignores.bind (.ofLayout _) fun action => fraction_ignores.bind fun u => ?_
        split
        · exact .pure _
        · exact randomAction_ignores

theorem followBest_ignores : Step.Ignores agent.SameExperts (withMemoriesOf past)
    (followBest state : Step (TrustAgent α γ) Assignment) := by
  refine Step.Ignores.read_bind fun s kept => ⟨?_, ?_⟩
  · have alike := fun id => (kept.remembered id state).trans (same id)
    rw [mostReliable, mostReliable, advices_withMemoriesOf alike]
  · refine Step.Ignores.bind (.ofLayout _) fun best => ?_
    cases best with
    | none => exact randomAction_ignores
    | some best =>
      refine fraction_ignores.bind fun u => ?_
      split
      · exact .pure _
      · exact randomAction_ignores

/-- An act does not notice other memories that say the same about its state. -/
theorem act_ignores (mayExplore : Bool) : Step.Ignores agent.SameExperts (withMemoriesOf past)
    (act state mayExplore : Step (TrustAgent α γ) Assignment) := by
  have noted : Step.Ignores agent.SameExperts (withMemoriesOf past)
      (modify note : Step (TrustAgent α γ) PUnit) := fun s kept =>
    ⟨kept, congrArg (Prod.mk _) note_withMemoriesOf⟩
  refine noted.bind fun _ => ?_
  split
  · exact exploit_ignores
  · refine fraction_ignores.bind fun u => Step.Ignores.read_bind fun s kept => ⟨rfl, ?_⟩
    split
    · exact exploit_ignores
    · refine Step.Ignores.read_bind fun s kept => ⟨rfl, ?_⟩
      split
      · exact .ofLayout _
      · split
        · exact followPosterior_ignores same
        · exact followBest_ignores same

end Ignores

end TrustAgent

/-! ## Agents that follow advice -/

namespace Follower

/-- What is remembered of each expert. -/
def recollections (agent : Follower α γ) : Recollections := agent.memory.get?

/-- The advice that an expert last gave for a state. -/
def remembered (agent : Follower α γ) : ExpertId → Assignment → Except Error (Option Assignment) :=
  recalled agent.recollections

omit [Scalar α] in
theorem recollections_insert (agent : Follower α γ) (id : ExpertId)
    (memory : StateTable (Option Assignment)) :
    recollections { agent with memory := agent.memory.insert id memory } =
      Function.update agent.recollections id (some memory) :=
  NameMap.get?_insert_eq_update ..

omit [Scalar α] in
/-- What comes of one piece of advice: it is remembered, or nothing has changed. -/
theorem remember_cases (state : Assignment) (entry : ExpertId × Assignment) (agent : Follower α γ) :
    (∃ memory old table, agent.memory.get? entry.1 = some memory ∧
      memory.set state (some entry.2) = .ok (old, table) ∧
      answer (remember state entry) agent =
        (.ok (), { agent with memory := agent.memory.insert entry.1 table })) ∨
    ∃ e, answer (remember state entry) agent = (.error e, agent) ∧
      ∀ memory, agent.memory.get? entry.1 = some memory → ¬ memory.layout.Reads state := by
  rw [remember, answer_get_bind]
  rcases found : agent.memory.get? entry.1 with _ | memory
  · exact .inr ⟨_, rfl, fun _ held => by cases held⟩
  · dsimp only
    rw [answer_bind, Step.answer_ofLayout]
    rcases stored : memory.set state (some entry.2) with e | ⟨old, table⟩
    · refine .inr ⟨_, rfl, fun _ held => ?_⟩
      cases held
      rintro ⟨i, hi⟩
      obtain ⟨old, stored'⟩ := StateTable.set_of_indexOf hi (some entry.2)
      rw [stored'] at stored
      cases stored
    · exact .inl ⟨memory, old, table, rfl, stored, rfl⟩

omit [Scalar α] in
/-- To remember advice does not touch the learner. -/
theorem remember_base (kept : GreedyLearner α γ → Prop) (state : Assignment)
    (entry : ExpertId × Assignment) :
    Step.Keeps (Step.Retains fun agent : Follower α γ => kept agent.base) (remember state entry) := by
  intro agent holds
  rcases remember_cases state entry agent with ⟨_, _, _, -, -, ran⟩ | ⟨_, ran, -⟩
  · rw [ran]
    exact holds
  · rw [ran]
    exact holds

omit [Scalar α] in
/-- One piece of advice is remembered. -/
theorem remember_written {state : Assignment} {entry : ExpertId × Assignment}
    (said : advice.advice? entry.1 = some entry.2) :
    Step.Keeps (Step.Retains fun agent : Follower α γ =>
      Written states state advice before agent.recollections) (remember state entry) := by
  intro agent written
  rcases remember_cases state entry agent with ⟨memory, old, table, found, set, ran⟩ | ⟨e, ran, -⟩
  · rw [ran, recollections_insert]
    exact written.update found said set
  · rw [ran]
    exact written

omit [Scalar α] in
/-- Some pieces of advice are remembered, as far as it goes. -/
theorem loop_written {state : Assignment} {entries : List (ExpertId × Assignment)}
    (said : ∀ entry ∈ entries, advice.advice? entry.1 = some entry.2) :
    Step.Keeps (Step.Retains fun agent : Follower α γ =>
      Written states state advice before agent.recollections) (entries.forM (remember state)) :=
  .forM fun entry mem => remember_written (said entry mem)

omit [Scalar α] in
theorem written_of_loop {state : Assignment} {entries : List (ExpertId × Assignment)}
    (said : ∀ entry ∈ entries, advice.advice? entry.1 = some entry.2) {agent after : Follower α γ}
    (keyed : Keyed states agent.recollections) {result : Except Error Unit}
    (ran : answer (entries.forM (remember state)) agent = (result, after)) :
    Written states state advice agent.recollections after.recollections := by
  have written := loop_written said agent (Written.refl state advice keyed)
  rwa [ran] at written

/-- All that a lesson writes is what the experts said about the state of the trial, whether it goes well or
not. -/
theorem learn_written :
    Step.Keeps (Step.Retains fun agent : Follower α γ =>
      Written states trial.state advice before agent.recollections) (learn trial advice) :=
  (loop_written fun _ given => AdviceBundle.mem_given.1 given).bind fun _ _ => id

/-- The agents that come about around a learner, whatever they were used for. -/
inductive Arises [RandomSource γ] (states actions : Layout) (learning : LearnerConfig α) :
    Follower α γ → Prop
  | made {base : GreedyLearner α γ} (arises : base.Arises states actions learning) (seed : UInt64) :
      Arises states actions learning (ofLearner base seed)
  | acted {agent : Follower α γ} (state : Assignment) (explore : Bool)
      (arises : Arises states actions learning agent) :
      Arises states actions learning (answer (act state explore) agent).2
  | learned {agent : Follower α γ} (trial : Trial α) (advice : AdviceBundle)
      (arises : Arises states actions learning agent) :
      Arises states actions learning (answer (learn trial advice) agent).2
  | reset {agent : Follower α γ} (experts : List ExpertId)
      (arises : Arises states actions learning agent) :
      Arises states actions learning (agent.reset experts)

section Act

variable [RandomSource γ]

/-- What an act does: it reads the memories, and moves the learner or the source. -/
theorem act_cases (state : Assignment) (explore : Bool) (agent : Follower α γ) :
    (answer (act state explore) agent).2.memory = agent.memory ∧
      ((answer (act state explore) agent).2.base = agent.base ∨
        (answer (act state explore) agent).2.base =
          (answer (GreedyLearner.act state explore) agent.base).2) := by
  rw [act, answer_get_bind]
  rcases agent.advices state with e | advices
  · exact ⟨rfl, .inl rfl⟩
  · rw [Step.ofLayout_ok, pure_bind]
    split
    · exact ⟨rfl, .inr rfl⟩
    · exact ⟨rfl, .inl rfl⟩

/-- The agent with the memories that another one has of the experts. -/
def withMemoriesOf (past agent : Follower α γ) : Follower α γ :=
  { agent with memory := agent.memory.mapEntries fun id memory => (past.recollections id).getD memory }

omit [Scalar α] [RandomSource γ] in
theorem advices_withMemoriesOf {past agent : Follower α γ} {state : Assignment}
    (same : ∀ id, agent.remembered id state = past.remembered id state) :
    (withMemoriesOf past agent).advices state = agent.advices state := by
  have listed : ∀ e ∈ agent.memory.entries,
      ((past.recollections e.1).getD e.2).get state = e.2.get state := fun e he =>
    get_getD_of_same (NameMap.get?_eq_some.2 he) (same e.1)
  rw [advices, advices, withMemoriesOf, NameMap.values_mapEntries, NameMap.values, List.mapM_map,
    List.mapM_map]
  exact congrArg (· >>= _) (mapM_congr fun e he => listed e he)

/-- An act does not notice other memories that say the same about its state. -/
theorem act_ignores {past agent : Follower α γ} {state : Assignment}
    (same : ∀ id, agent.remembered id state = past.remembered id state) (explore : Bool) :
    Step.Ignores (fun s => s.memory = agent.memory) (withMemoriesOf past) (act state explore) := by
  intro s kept
  refine ⟨(act_cases state explore s).1.trans kept, ?_⟩
  have alike : (withMemoriesOf past s).advices state = s.advices state := by
    refine advices_withMemoriesOf fun id => ?_
    rw [← same, remembered, remembered, recollections, recollections, kept]
  rw [act, answer_get_bind, answer_get_bind, alike]
  rcases s.advices state with e | advices
  · rfl
  · rw [Step.ofLayout_ok, pure_bind, pure_bind]
    split
    · rfl
    · rfl

/-- A follower that came about follows a learner that came about, and keeps its memories by the states. -/
theorem Arises.keyed {learning : LearnerConfig α} {agent : Follower α γ}
    (arises : agent.Arises states actions learning) :
    agent.base.Arises states actions learning ∧ Keyed states agent.recollections := by
  induction arises with
  | made arises seed =>
    refine ⟨arises, fun id memory found => ?_⟩
    simp [recollections, ofLearner] at found
  | @acted agent state explore _ ih =>
    obtain ⟨memory, base | base⟩ := act_cases state explore agent
    · rw [recollections, memory, base]
      exact ih
    · rw [recollections, memory, base]
      exact ⟨.acted state explore ih.1, ih.2⟩
  | @learned agent trial advice _ ih =>
    have taught : Step.Keeps (Step.Retains fun s : Follower α γ => s.base.Arises states actions learning)
        (learn trial advice) :=
      Step.Keeps.bind (.forM fun entry _ => remember_base (·.Arises states actions learning) trial.state entry)
        fun _ _ arises => .learned trial arises
    exact ⟨taught agent ih.1, (learn_written _ (Written.refl trial.state advice ih.2)).keyed⟩
  | @reset agent experts _ ih =>
    have spans := ActionValues.spans_of_ofConfig ih.1.fresh
    refine ⟨.reset ih.1, fun id memory found => ?_⟩
    obtain ⟨_, -, e⟩ := List.mem_map.1 (NameMap.mem_of_get?_ofList found)
    cases e
    exact spans.states

end Act

end Follower

end Counsel
