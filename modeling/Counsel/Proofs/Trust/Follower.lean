/-
What an agent that trusts every expert can be asked for. It names a joint action in every state
(`Follower.act_yields`), its learner's or one that it remembers, because all advice that it remembers
is a joint action; and it takes in every finished trial with advice from its own experts
(`Follower.learn_yields`).
-/
import Counsel.Proofs.Trust.Ready
import Counsel.Trust.Follower

namespace Counsel

open Outcome

/-! ## Who spoke -/

namespace AdviceBundle

variable {bundle : AdviceBundle}

theorem mem_given {entry : ExpertId × Assignment} :
    entry ∈ bundle.given ↔ bundle.advice? entry.1 = some entry.2 := by
  rw [given, List.mem_filterMap, advice?, Option.join_eq_some_iff, NameMap.get?_eq_some]
  constructor
  · rintro ⟨⟨id, advice⟩, mem, spoken⟩
    obtain ⟨a, rfl, rfl⟩ := Option.map_eq_some_iff.1 spoken
    exact mem
  · intro mem
    exact ⟨_, mem, rfl⟩

theorem mem_names_of_advice {id : ExpertId} {a : Assignment} (spoken : bundle.advice? id = some a) :
    id ∈ bundle.names :=
  NameMap.mem_names.2 ⟨_, Option.join_eq_some_iff.1 spoken⟩

end AdviceBundle

namespace Follower

variable {α γ : Type} [Scalar α] [RandomSource γ] {states actions : Layout}
  {state action : Assignment} {ids : List ExpertId}

/-- A follower with some experts, of each of whom it remembers joint actions. -/
structure Ready (states actions : Layout) (ids : List ExpertId) (agent : Follower α γ) : Prop where
  base : agent.base.Ready states actions
  names : ∀ id, id ∈ agent.memory.names ↔ id ∈ ids
  memory : ∀ id table, agent.memory.get? id = some table → table.Recalls states actions

omit [Scalar α] in
/-- A follower that is made around a learner has no experts yet. -/
theorem ready_ofLearner {base : GreedyLearner α γ} (ready : base.Ready states actions)
    (seed : UInt64) : (ofLearner base seed).Ready states actions [] where
  base := ready
  names _ := by simp [ofLearner, NameMap.mem_names, NameMap.get?_empty]
  memory _ _ found := by simp [ofLearner, NameMap.get?_empty] at found

omit [Scalar α] in
theorem Ready.reset {agent : Follower α γ} (ready : agent.Ready states actions ids)
    (ids' : List ExpertId) : (agent.reset ids').Ready states actions ids' where
  base := ready.base.reset
  names id := by simp [Follower.reset, NameMap.mem_names_ofList]
  memory id table found := by
    obtain ⟨_, -, e⟩ := List.mem_map.1 (NameMap.mem_of_get?_ofList found)
    cases e
    exact ready.base.reset.states ▸ StateTable.recalls_replicate

/-! ## Acting -/

omit [Scalar α] [RandomSource γ] in
/-- All advice that is remembered for a state is a joint action. -/
theorem Ready.exists_advices {agent : Follower α γ} (ready : agent.Ready states actions ids)
    (state_of : states.Reads state) :
    ∃ advices, agent.advices state = .ok advices ∧ ∀ a ∈ advices, a ∈ actions.assignments := by
  have each : ∀ table ∈ agent.memory.values, ∃ said, table.get state = .ok said ∧
      ∀ a ∈ said, a ∈ actions.assignments := by
    intro table ht
    obtain ⟨id, found⟩ := NameMap.mem_values.1 ht
    exact (ready.memory id table found).exists_get state_of
  obtain ⟨entries, listed⟩ := exists_mapM fun table ht => (each table ht).imp fun _ => And.left
  refine ⟨_, bind_eq_ok.2 ⟨entries, listed, rfl⟩, fun a ha => ?_⟩
  obtain ⟨said, mem, rfl⟩ := List.mem_filterMap.1 ha
  obtain ⟨table, ht, read⟩ := forall₂_right_mem (mapM_eq_ok.1 listed) mem
  obtain ⟨said', read', said_of⟩ := each table ht
  cases read.symm.trans read'
  exact said_of a rfl

/-- A follower names a joint action in every state. -/
theorem act_yields (state_of : states.Reads state) (explore : Bool) :
    Step.Yields (Ready (α := α) (γ := γ) states actions ids) (act state explore)
      fun action agent => agent.Ready states actions ids ∧ action ∈ actions.assignments := by
  refine Step.Yields.read_bind fun agent ready => ?_
  obtain ⟨advices, listed, advices_of⟩ := ready.exists_advices state_of
  rw [listed, Step.ofLayout_ok, pure_bind]
  split
  next =>
    exact (GreedyLearner.act_yields state_of explore).within (fun _ k => k.base)
      fun _ k _ _ acted => ⟨{ k with base := acted.1 }, acted.2⟩
  next some_advice =>
    have pos : 0 < advices.length :=
      List.length_pos_iff.2 fun none => some_advice (List.isEmpty_iff.2 none)
    have lt := RandomSource.below_lt advices.length agent.source pos
    have drawn : Ready states actions ids
        { agent with source := (RandomSource.below advices.length agent.source).2 } :=
      { ready with }
    refine Step.Yields.bind (Step.Yields.set drawn) fun _ => Step.Yields.pure fun _ k => ⟨k, ?_⟩
    exact List.getD_eq_getElem advices .empty lt ▸ advices_of _ (List.getElem_mem lt)

/-! ## Learning -/

omit [Scalar α] [RandomSource γ] in
/-- Advice of an expert of the follower can be remembered. -/
theorem remember_yields (state_of : states.Reads state) {entry : ExpertId × Assignment}
    (member : entry.1 ∈ ids) (mem : entry.2 ∈ actions.assignments) :
    Step.Yields (Ready (α := α) (γ := γ) states actions ids) (remember state entry)
      fun _ => Ready states actions ids := by
  intro agent ready
  obtain ⟨table, found⟩ := NameMap.mem_names.1 ((ready.names entry.1).2 member)
  obtain ⟨old, after, stored, recalls⟩ := (ready.memory _ table found).exists_set state_of mem
  refine ⟨(), { agent with memory := agent.memory.insert entry.1 after }, ?_,
    ready.base, fun id => ?_, fun id table' held => ?_⟩
  · rw [remember, answer_get_bind, found]
    dsimp only
    rw [stored]
    rfl
  · rw [NameMap.mem_names_insert, ← ready.names, or_iff_right_iff_imp]
    rintro rfl
    exact NameMap.mem_names.2 ⟨table, found⟩
  · rw [NameMap.get?_insert] at held
    split at held
    · cases held
      exact recalls
    · exact ready.memory id table' held

omit [RandomSource γ] in
/-- A finished trial, with advice from experts of the follower, is learned without failing. -/
theorem learn_yields {trial : Trial α} (state_of : states.Reads trial.state)
    (action_of : actions.Reads trial.action) {advice : AdviceBundle}
    (heard : advice.From ids (· ∈ actions.assignments)) :
    Step.Yields (Ready (α := α) (γ := γ) states actions ids) (learn trial advice)
      fun _ => Ready states actions ids := by
  have remembered : ∀ entry ∈ advice.given,
      Step.Yields (Ready (α := α) (γ := γ) states actions ids) (remember trial.state entry)
        fun _ => Ready states actions ids := by
    intro entry given
    have spoken := AdviceBundle.mem_given.1 given
    exact remember_yields state_of (heard.names _ (AdviceBundle.mem_names_of_advice spoken))
      (heard.advice _ _ spoken)
  refine (Step.Yields.forM remembered).bind fun _ => ?_
  exact (GreedyLearner.learn_yields state_of action_of).within (fun _ k => k.base)
    fun _ k _ _ base => { k with base := base }

end Follower

end Counsel
