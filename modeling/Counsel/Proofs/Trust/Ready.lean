/-
What an agent that weighs advice can be asked for. It names a joint action in every state that is
read, however it comes to it (`TrustAgent.act_yields`), because all that it remembers are joint actions
and can be listed where every memory can be looked up (`TrustAgent.advices_eq_ok`).
It takes in every finished trial with advice from its own experts, and each trial adds at most one
judgement of an expert (`TrustAgent.learn_yields`), because each expert is judged once in a round
(`judges_yields`).
-/
import Counsel.Proofs.Config.Valid
import Counsel.Proofs.Trust.Learner

namespace Counsel

open Outcome

variable {α γ : Type} [Scalar α] {states actions : Layout} {state action : Assignment}

/-! ## Advice -/

/-- A bundle that names some of these experts, whose advice is fair if they speak. -/
structure AdviceBundle.From (ids : List ExpertId) (fair : Assignment → Prop) (bundle : AdviceBundle) :
    Prop where
  names : ∀ id ∈ bundle.names, id ∈ ids
  advice : ∀ id, ∀ a ∈ bundle.advice? id, fair a

theorem AdviceBundle.from_ofList {said : List (ExpertId × Option Assignment)}
    {fair : Assignment → Prop} (advice_of : ∀ s ∈ said, ∀ a ∈ s.2, fair a) :
    From (said.map (·.1)) fair (.ofList said) where
  names id hid := by
    obtain ⟨value, found⟩ := NameMap.mem_names.1 hid
    exact List.mem_map_of_mem (NameMap.mem_of_get?_ofList found)
  advice id a spoken := by
    have found : (NameMap.ofList said).get? id = some (some a) := Option.join_eq_some_iff.1 spoken
    exact advice_of _ (NameMap.mem_of_get?_ofList found) a rfl

namespace StateTable

/-- A table that recalls joint actions by the state. -/
structure Recalls (states actions : Layout) (memory : StateTable (Option Assignment)) : Prop where
  layout : memory.layout = states
  advice : ∀ i a, memory.at? i = some (some a) → a ∈ actions.assignments

variable {memory : StateTable (Option Assignment)}

theorem recalls_replicate : Recalls states actions (replicate states none) :=
  ⟨rfl, fun _ _ held => absurd held not_held_replicate⟩

theorem Recalls.exists_get (recalls : memory.Recalls states actions) (state_of : states.Reads state) :
    ∃ said, memory.get state = .ok said ∧ ∀ a ∈ said, a ∈ actions.assignments := by
  obtain ⟨i, hi⟩ := state_of
  obtain ⟨said, held, read⟩ := get_of_indexOf (recalls.layout ▸ hi)
  exact ⟨said, read, fun a ha => recalls.advice i a (by rw [held, ha])⟩

theorem Recalls.exists_set (recalls : memory.Recalls states actions) (state_of : states.Reads state)
    (mem : action ∈ actions.assignments) :
    ∃ old after, memory.set state (some action) = .ok (old, after) ∧ after.Recalls states actions := by
  obtain ⟨i, hi⟩ := state_of
  rw [← recalls.layout] at hi
  obtain ⟨old, stored⟩ := set_of_indexOf hi (some action)
  refine ⟨old, _, stored, recalls.layout, fun j a held => ?_⟩
  rw [at?_setAt (Layout.indexOf_lt hi)] at held
  split at held
  · cases held
    exact mem
  · exact recalls.advice j a held

end StateTable

/-! ## One expert -/

/-- Each judgement counts once. -/
theorem Belief.evaluations_record (belief : Belief α) (outcome : Bool) :
    (belief.record outcome).evaluations = belief.evaluations + 1 := by
  have counted : (belief.count outcome).evaluations = belief.evaluations := by
    rw [count]
    split
    · rfl
    · split <;> rfl
  have averaged : ((belief.count outcome).average outcome).evaluations = belief.evaluations := by
    rw [average]
    split
    · exact counted
    · exact counted
  exact congrArg (· + 1) averaged

namespace Acquaintance

/-- Joint actions are remembered of an expert who was judged so often at most. -/
structure Ready (states actions : Layout) (bound : Nat) (known : Acquaintance α) : Prop where
  memory : known.memory.Recalls states actions
  evaluations : known.belief.evaluations ≤ bound

variable {known : Acquaintance α} {bound : Nat}

omit [Scalar α] in
theorem Ready.exists_remember (ready : known.Ready states actions bound)
    (state_of : states.Reads state) {fresh : Option Assignment}
    (fresh_of : ∀ a ∈ fresh, a ∈ actions.assignments) :
    ∃ memory, known.remember state fresh = .ok memory ∧ memory.Recalls states actions := by
  cases fresh with
  | none => exact ⟨_, rfl, ready.memory⟩
  | some advice =>
    obtain ⟨old, after, stored, recalls⟩ :=
      ready.memory.exists_set state_of (fresh_of advice rfl)
    exact ⟨after, by rw [remember, stored]; rfl, recalls⟩

theorem exists_counted {memory : StateTable (Option Assignment)}
    (recalls : memory.Recalls states actions) (state_of : states.Reads state)
    {fresh : Option Assignment} (fresh_of : ∀ a ∈ fresh, a ∈ actions.assignments) (regular : Bool) :
    ∃ advice, counted regular memory state fresh = .ok advice ∧
      ∀ a ∈ advice, a ∈ actions.assignments := by
  cases regular with
  | true => exact recalls.exists_get state_of
  | false => exact ⟨fresh, rfl, fresh_of⟩

theorem Ready.exists_weigh (ready : known.Ready states actions bound)
    {values : ActionValues α} (spans : values.Spans states actions) (state_of : states.Reads state)
    {advice : Option Assignment} (advice_of : ∀ a ∈ advice, a ∈ actions.assignments) :
    ∃ after, known.weigh values state advice = .ok after ∧ after.Ready states actions (bound + 1) := by
  cases advice with
  | none => exact ⟨known, rfl, ready.memory, Nat.le_succ_of_le ready.evaluations⟩
  | some advice =>
    obtain ⟨verdict, judged⟩ := spans.exists_optimal state_of
      (Layout.reads_of_mem_assignments (advice_of advice rfl))
    refine ⟨_, bind_eq_ok.2 ⟨verdict, judged, rfl⟩, ready.memory, ?_⟩
    rw [Belief.evaluations_record]
    exact Nat.succ_le_succ ready.evaluations

/-- The advice of an expert in a trial can be studied, and adds at most one judgement. -/
theorem Ready.exists_study (ready : known.Ready states actions bound)
    {values : ActionValues α} (spans : values.Spans states actions) {trial : Trial α}
    (state_of : states.Reads trial.state) {fresh : Option Assignment}
    (fresh_of : ∀ a ∈ fresh, a ∈ actions.assignments) (regular : Bool) :
    ∃ after, known.study values regular trial fresh = .ok after ∧
      after.Ready states actions (bound + 1) := by
  obtain ⟨memory, remembered, recalls⟩ := ready.exists_remember state_of fresh_of
  obtain ⟨advice, counts, advice_of⟩ := exists_counted recalls state_of fresh_of regular
  have between : Ready states actions bound { known with memory } := ⟨recalls, ready.evaluations⟩
  obtain ⟨after, weighed, ready'⟩ := between.exists_weigh spans state_of advice_of
  exact ⟨after, bind_eq_ok.2 ⟨memory, remembered, bind_eq_ok.2 ⟨advice, counts, weighed⟩⟩, ready'⟩

end Acquaintance

namespace TrustAgent

variable [RandomSource γ] {ids : List ExpertId} {acted : Nat} {bound : ExpertId → Nat}

/-- An agent with some experts after a number of acts: it knows these experts, of whom each was judged
so often at most, and what it thought of each of them at each act. -/
structure Ready (states actions : Layout) (ids : List ExpertId) (acted : Nat)
    (bound : ExpertId → Nat) (agent : TrustAgent α γ) : Prop where
  base : agent.base.values.Spans states actions
  names : ∀ id, id ∈ agent.experts.names ↔ id ∈ ids
  known : ∀ id known, agent.experts.get? id = some known → known.Ready states actions (bound id)
  traced : ∀ id, id ∈ agent.history.names ↔ id ∈ ids
  traces : ∀ id trace, agent.history.get? id = some trace → trace.size = acted

omit [Scalar α] [RandomSource γ] in
theorem Ready.actions_eq {agent : TrustAgent α γ} (ready : agent.Ready states actions ids acted bound) :
    agent.actions = actions := ready.base.actions

omit [Scalar α] [RandomSource γ] in
theorem Ready.mono {agent : TrustAgent α γ} (ready : agent.Ready states actions ids acted bound)
    {bound' : ExpertId → Nat} (le : ∀ id, bound id ≤ bound' id) :
    agent.Ready states actions ids acted bound' :=
  { ready with known := fun id known found =>
      ⟨(ready.known id known found).memory, (ready.known id known found).evaluations.trans (le id)⟩ }

/-- An agent that is reset is ready for its experts. -/
theorem ready_reset {agent : TrustAgent α γ} (spans : agent.base.values.Spans states actions)
    (ids : List ExpertId) : (agent.reset ids).Ready states actions ids 0 fun _ => 0 where
  base := spans.reset
  names id := by simp [TrustAgent.reset, NameMap.mem_names_ofList]
  known id known found := by
    obtain ⟨_, -, e⟩ := List.mem_map.1 (NameMap.mem_of_get?_ofList found)
    cases e
    exact ⟨spans.reset.states ▸ StateTable.recalls_replicate, Nat.le_refl 0⟩
  traced id := by simp [TrustAgent.reset, NameMap.mem_names_ofList]
  traces id trace found := by
    obtain ⟨_, -, e⟩ := List.mem_map.1 (NameMap.mem_of_get?_ofList found)
    cases e
    rfl

section Heard

variable {agent : TrustAgent α γ}

/-- What is remembered of an expert for a state, with its reliability. -/
def said (state : Assignment) (known : Acquaintance α) : Option (α × Assignment) :=
  (known.memory.get state).toOption.join.map (known.belief.rho, ·)

/-- The advice for a state, in the order of the experts. -/
def heard (agent : TrustAgent α γ) (state : Assignment) : List (α × Assignment) :=
  agent.experts.values.filterMap (said state)

theorem said_eq_some {known : Acquaintance α} {e : α × Assignment} :
    said state known = some e ↔ known.belief.rho = e.1 ∧ known.memory.get state = .ok (some e.2) := by
  unfold said
  rcases known.memory.get state with error | _ | advice
  · simp [Except.toOption]
  · simp [Except.toOption]
  · simp [Except.toOption, Prod.ext_iff]

omit [RandomSource γ] in
theorem mem_heard {e : α × Assignment} : e ∈ agent.heard state ↔
    ∃ known ∈ agent.experts.values, known.belief.rho = e.1 ∧ known.memory.get state = .ok (some e.2) := by
  simp only [heard, List.mem_filterMap, said_eq_some]

omit [RandomSource γ] in
/-- The advice can be listed where every memory can be looked up. -/
theorem advices_eq_ok {advices : List (α × Assignment)} :
    agent.advices state = .ok advices ↔
      (∀ known ∈ agent.experts.values, ∃ remembered, known.memory.get state = .ok remembered) ∧
        advices = agent.heard state := by
  unfold TrustAgent.advices
  constructor
  · intro listed
    obtain ⟨entries, read, listed⟩ := bind_eq_ok.1 listed
    cases listed
    have looked_up : List.Forall₂ (fun known entry => entry = said state known ∧
        ∃ remembered, known.memory.get state = .ok remembered) agent.experts.values entries := by
      refine (mapM_eq_ok.1 read).imp fun known entry made => ?_
      obtain ⟨remembered, read, made⟩ := bind_eq_ok.1 made
      cases made
      exact ⟨by rw [said, read]; rfl, remembered, read⟩
    refine ⟨fun known hk => ?_, ?_⟩
    · obtain ⟨_, -, -, there⟩ := forall₂_mem looked_up hk
      exact there
    · have entries_eq : entries = agent.experts.values.map (said state) := by
        rw [← List.forall₂_eq_eq_eq, List.forall₂_map_right_iff]
        exact looked_up.flip.imp fun _ _ same => same.1
      rw [entries_eq, List.filterMap_map]
      rfl
  · rintro ⟨looked_up, rfl⟩
    have read : (agent.experts.values.mapM fun known =>
        return (← known.memory.get state).map (known.belief.rho, ·) : Except LayoutError _) =
          .ok (agent.experts.values.map (said state)) := by
      refine mapM_eq_ok_map fun known hk => ?_
      obtain ⟨remembered, there⟩ := looked_up known hk
      rw [said, there]
      rfl
    refine bind_eq_ok.2 ⟨_, read, ?_⟩
    rw [List.filterMap_map]
    rfl

omit [RandomSource γ] in
/-- All advice that is remembered for a state is a joint action. -/
theorem Ready.exists_advices (ready : agent.Ready states actions ids acted bound)
    (state_of : states.Reads state) :
    ∃ advices, agent.advices state = .ok advices ∧ ∀ e ∈ advices, e.2 ∈ actions.assignments := by
  have each : ∀ known ∈ agent.experts.values, ∃ remembered, known.memory.get state = .ok remembered ∧
      ∀ a ∈ remembered, a ∈ actions.assignments := by
    intro known hk
    obtain ⟨id, found⟩ := NameMap.mem_values.1 hk
    exact (ready.known id known found).memory.exists_get state_of
  refine ⟨_, advices_eq_ok.2 ⟨fun known hk => (each known hk).imp fun _ => And.left, rfl⟩, fun e he => ?_⟩
  obtain ⟨known, hk, -, read⟩ := mem_heard.1 he
  obtain ⟨remembered, read', remembered_of⟩ := each known hk
  cases read.symm.trans read'
  exact remembered_of e.2 rfl

end Heard

/-! ## Weighing advice -/

section Weighing

variable {agent : TrustAgent α γ}

omit [Scalar α] in
theorem mapM_indexOf_eq_ok {advices : List (α × Assignment)} {named : List (α × Nat)} :
    (advices.mapM fun e => return (e.1, ← actions.indexOf e.2) : Except LayoutError _) = .ok named ↔
      List.Forall₂ (fun e d => d.1 = e.1 ∧ actions.indexOf e.2 = .ok d.2) advices named := by
  have each : ∀ (e : α × Assignment) (d : α × Nat),
      (do return (e.1, ← actions.indexOf e.2) : Except LayoutError (α × Nat)) = .ok d ↔
        d.1 = e.1 ∧ actions.indexOf e.2 = .ok d.2 := by
    intro e d
    rw [bind_eq_ok]
    constructor
    · rintro ⟨i, hi, made⟩
      cases made
      exact ⟨rfl, hi⟩
    · rintro ⟨same, hi⟩
      exact ⟨d.2, hi, by rw [← same]; rfl⟩
  simp only [mapM_eq_ok, each]

omit [RandomSource γ] in
/-- There is a posterior where the advice can be listed and each piece of it has an index. -/
theorem posterior_eq_ok_iff {posterior : Option (List α)} :
    agent.posterior state = .ok posterior ↔ ∃ advices named, agent.advices state = .ok advices ∧
      List.Forall₂ (fun e d => d.1 = e.1 ∧ agent.actions.indexOf e.2 = .ok d.2) advices named ∧
      posterior = if advices.isEmpty then none else posteriorOf agent.actions.size named := by
  unfold TrustAgent.posterior
  constructor
  · intro h
    obtain ⟨advices, listed, h⟩ := bind_eq_ok.1 h
    split at h
    next silent =>
      cases h
      rw [List.isEmpty_iff] at silent
      exact ⟨[], [], silent ▸ listed, .nil, rfl⟩
    next some_advice =>
      obtain ⟨named, indexed, h⟩ := bind_eq_ok.1 h
      cases h
      exact ⟨advices, named, listed, mapM_indexOf_eq_ok.1 indexed, (if_neg some_advice).symm⟩
  · rintro ⟨advices, named, listed, read, rfl⟩
    refine bind_eq_ok.2 ⟨advices, listed, ?_⟩
    split
    next => rfl
    next => exact bind_eq_ok.2 ⟨named, mapM_indexOf_eq_ok.2 read, rfl⟩

/-- A posterior has a weight for each action. -/
theorem length_posteriorOf {n : Nat} {named : List (α × Nat)} :
    ∀ weights ∈ posteriorOf n named, weights.length = n := by
  have weighed : ∀ (named : List (α × Nat)) (weights : List α), weights.length = n →
      (named.foldl (fun weights e => weigh n weights e.1 e.2) weights).length = n := by
    intro named
    induction named with
    | nil => exact fun _ length => length
    | cons e rest ih => exact fun weights length => ih _ (by simp [weigh, length])
  intro weights made
  unfold posteriorOf Scalar.normalize at made
  simp only at made
  split at made
  · cases made
    rw [List.length_map]
    exact weighed named _ List.length_replicate
  · cases made

omit [RandomSource γ] in
theorem Ready.exists_posterior (ready : agent.Ready states actions ids acted bound)
    (state_of : states.Reads state) :
    ∃ posterior, agent.posterior state = .ok posterior ∧
      ∀ weights ∈ posterior, weights.length = agent.actions.size := by
  obtain ⟨advices, listed, advices_of⟩ := ready.exists_advices state_of
  obtain ⟨named, read⟩ : ∃ named, List.Forall₂ (fun e (d : α × Nat) => d.1 = e.1 ∧
      agent.actions.indexOf e.2 = .ok d.2) advices named := by
    refine exists_forall₂ fun e he => ?_
    obtain ⟨i, hi⟩ := Layout.reads_of_mem_assignments (advices_of e he)
    exact ⟨(e.1, i), rfl, ready.actions_eq ▸ hi⟩
  refine ⟨_, posterior_eq_ok_iff.2 ⟨advices, named, listed, read, rfl⟩, ?_⟩
  split
  · exact fun _ none => by cases none
  · exact length_posteriorOf

omit [RandomSource γ] in
/-- The most reliable advice is among the advice remembered. -/
theorem mem_of_foldl_moreReliable {advices : List (α × Assignment)}
    {best : Option (α × Assignment)} {e : α × Assignment}
    (found : advices.foldl moreReliable best = some e) : e ∈ advices ∨ best = some e := by
  induction advices generalizing best with
  | nil => exact .inr found
  | cons next rest ih =>
    rcases ih found with later | here
    · exact .inl (List.mem_cons_of_mem _ later)
    · cases best with
      | none =>
        cases here
        exact .inl List.mem_cons_self
      | some held =>
        rw [moreReliable] at here
        split at here
        · cases here
          exact .inl List.mem_cons_self
        · exact .inr here

omit [RandomSource γ] in
theorem Ready.exists_mostReliable (ready : agent.Ready states actions ids acted bound)
    (state_of : states.Reads state) :
    ∃ best, agent.mostReliable state = .ok best ∧ ∀ e ∈ best, e.2 ∈ actions.assignments := by
  obtain ⟨advices, listed, advices_of⟩ := ready.exists_advices state_of
  refine ⟨_, bind_eq_ok.2 ⟨advices, listed, rfl⟩, fun e he => ?_⟩
  rcases mem_of_foldl_moreReliable he with mem | none
  · exact advices_of e mem
  · cases none

end Weighing

/-! ## Acting -/

/-- A draw changes nothing but the source. -/
theorem fraction_yields {kept : TrustAgent α γ → Prop}
    (stable : ∀ agent source, kept agent → kept { agent with source }) :
    Step.Yields kept fraction fun _ agent => kept agent :=
  fun agent k => ⟨_, _, rfl, stable agent _ k⟩

omit [Scalar α] in
theorem randomAction_yields :
    Step.Yields (Ready (α := α) (γ := γ) states actions ids acted bound) randomAction
      fun action agent => agent.Ready states actions ids acted bound ∧ action ∈ actions.assignments := by
  refine Step.Yields.read_bind fun agent ready => ?_
  obtain ⟨action, mem, named⟩ := Layout.exists_assignmentAt
    (RandomSource.below_lt agent.actions.size agent.source agent.actions.size_pos)
  rw [ready.actions_eq] at mem
  have drawn : Ready states actions ids acted bound
      { agent with source := (RandomSource.below agent.actions.size agent.source).2 } :=
    { ready with }
  exact Step.Yields.bind (Step.Yields.set drawn) fun _ => Step.Yields.ofLayout fun _ k =>
    ⟨action, named, k, mem⟩

theorem exploit_yields (state_of : states.Reads state) :
    Step.Yields (Ready (α := α) (γ := γ) states actions ids acted bound) (exploit state)
      fun action agent => agent.Ready states actions ids acted bound ∧ action ∈ actions.assignments :=
  (GreedyLearner.act_yields state_of false).within (fun _ k => k.base) fun _ k _ _ acted =>
    ⟨{ k with base := acted.1 }, acted.2⟩

/-- A choice of an action, unless a draw lets it be a random one. -/
theorem draw_yields {p : α → Prop} [DecidablePred p] (mem : action ∈ actions.assignments) :
    Step.Yields (Ready (γ := γ) states actions ids acted bound)
      (fraction >>= fun u => if p u then pure action else randomAction) fun action agent =>
        agent.Ready states actions ids acted bound ∧ action ∈ actions.assignments := by
  refine (fraction_yields fun _ _ k => { k with }).bind fun u => ?_
  split
  · exact Step.Yields.pure fun _ k => ⟨k, mem⟩
  · exact randomAction_yields

theorem followPosterior_yields (state_of : states.Reads state) :
    Step.Yields (Ready (α := α) (γ := γ) states actions ids acted bound) (followPosterior state)
      fun action agent =>
        agent.Ready states actions ids acted bound ∧ action ∈ actions.assignments := by
  refine Step.Yields.read_bind fun agent ready => ?_
  obtain ⟨posterior, weighed, length⟩ := ready.exists_posterior state_of
  rw [weighed, Step.ofLayout_ok, pure_bind]
  cases posterior with
  | none => exact randomAction_yields
  | some weights =>
    dsimp only
    split
    · exact randomAction_yields
    · have lt := Scalar.argmaxFirst_lt (length weights rfl ▸ agent.actions.size_pos)
      obtain ⟨action, mem, named⟩ := Layout.exists_assignmentAt (length weights rfl ▸ lt)
      rw [named, Step.ofLayout_ok, pure_bind]
      exact draw_yields (ready.actions_eq ▸ mem)

theorem followBest_yields (state_of : states.Reads state) :
    Step.Yields (Ready (α := α) (γ := γ) states actions ids acted bound) (followBest state)
      fun action agent =>
        agent.Ready states actions ids acted bound ∧ action ∈ actions.assignments := by
  refine Step.Yields.read_bind fun agent ready => ?_
  obtain ⟨best, weighed, best_of⟩ := ready.exists_mostReliable state_of
  rw [weighed, Step.ofLayout_ok, pure_bind]
  cases best with
  | none => exact randomAction_yields
  | some best => exact draw_yields (best_of best rfl)

theorem explore_yields (state_of : states.Reads state) :
    Step.Yields (Ready (α := α) (γ := γ) states actions ids acted bound) (explore state)
      fun action agent =>
        agent.Ready states actions ids acted bound ∧ action ∈ actions.assignments := by
  refine Step.Yields.read_bind fun agent ready => ?_
  split
  · obtain ⟨action, mem, named⟩ := Layout.exists_assignmentAt agent.actions.size_pos
    exact Step.Yields.ofLayout fun _ k => ⟨action, named, k, ready.actions_eq ▸ mem⟩
  · split
    · exact followPosterior_yields state_of
    · exact followBest_yields state_of

omit [RandomSource γ] in
/-- What is thought of each expert is noted. -/
theorem Ready.note {agent : TrustAgent α γ} (ready : agent.Ready states actions ids acted bound) :
    agent.note.Ready states actions ids (acted + 1) bound where
  base := ready.base
  names := ready.names
  known := ready.known
  traced id := by rw [TrustAgent.note, NameMap.names_mapEntries, ready.traced]
  traces id trace found := by
    rw [TrustAgent.note, NameMap.get?_mapEntries, Option.map_eq_some_iff] at found
    obtain ⟨earlier, held, rfl⟩ := found
    obtain ⟨known, found⟩ := NameMap.mem_names.1
      ((ready.names id).2 ((ready.traced id).1 (NameMap.mem_names.2 ⟨earlier, held⟩)))
    rw [rho?, found]
    exact (Array.size_push _).trans (congrArg (· + 1) (ready.traces id earlier held))

/-- An agent names a joint action in every state, and notes once what it thinks of its experts. -/
theorem act_yields (state_of : states.Reads state) (mayExplore : Bool) :
    Step.Yields (Ready (α := α) (γ := γ) states actions ids acted bound) (act state mayExplore)
      fun action agent => agent.Ready states actions ids (acted + 1) bound ∧ action ∈ actions.assignments := by
  have noted : Step.Yields (Ready (α := α) (γ := γ) states actions ids acted bound) (modify note)
      fun _ => Ready states actions ids (acted + 1) bound := Step.Yields.change fun _ ready => ready.note
  refine noted.bind fun _ => ?_
  split
  · exact exploit_yields state_of
  · refine (fraction_yields fun _ _ k => { k with }).bind fun u => ?_
    refine Step.Yields.read_bind fun agent ready => ?_
    split
    · exact exploit_yields state_of
    · exact explore_yields state_of

/-! ## Learning -/

omit [RandomSource γ] in
/-- An expert is judged, and the others are left alone. -/
theorem judge_yields {trial : Trial α} (state_of : states.Reads trial.state)
    (id : ExpertId) {fresh : Option Assignment} (fresh_of : ∀ a ∈ fresh, a ∈ actions.assignments) :
    Step.Yields (Ready (α := α) (γ := γ) states actions ids acted bound) (judge trial id fresh)
      fun _ agent => agent.Ready states actions ids acted fun other => bound other + [id].count other := by
  intro agent ready
  rcases found : agent.experts.get? id with _ | known
  · exact ⟨(), agent, judge_of_unknown found, ready.mono fun _ => Nat.le_add_right ..⟩
  · obtain ⟨after, studied, ready'⟩ := (ready.known id known found).exists_study ready.base
      state_of fresh_of agent.config.regularUpdate
    obtain ⟨_, judged⟩ := answer_judge trial fresh found
    rw [studied] at judged
    refine ⟨(), _, judged, ⟨ready.base, fun other => ?_, fun other known' held => ?_,
      ready.traced, ready.traces⟩⟩
    · rw [NameMap.mem_names_insert, ← ready.names, or_iff_right_iff_imp]
      rintro rfl
      exact NameMap.mem_names.2 ⟨known, found⟩
    · rw [NameMap.get?_insert] at held
      split at held
      next same =>
        cases held
        subst same
        rw [List.count_singleton_self]
        exact ready'
      next ne =>
        rw [List.count_singleton, beq_false_of_ne ne]
        exact ready.known other known' held

omit [RandomSource γ] in
/-- A round of judging adds a judgement of each expert whenever it is named. -/
theorem judges_yields {trial : Trial α}
    (state_of : states.Reads trial.state) {fresh : ExpertId → Option Assignment}
    (fresh_of : ∀ id, ∀ a ∈ fresh id, a ∈ actions.assignments) (named : List ExpertId) :
    Step.Yields (Ready (α := α) (γ := γ) states actions ids acted bound)
      (named.forM fun id => judge trial id (fresh id)) fun _ agent =>
        agent.Ready states actions ids acted fun other => bound other + named.count other := by
  induction named generalizing bound with
  | nil => exact Step.Yields.pure fun agent ready => ready
  | cons id rest ih =>
    refine (judge_yields state_of id (fresh_of id)).bind fun _ => (ih.imp (fun _ k => k) ?_)
    intro _ agent ready
    refine ready.mono fun other => ?_
    rw [Nat.add_assoc, ← List.count_append, List.singleton_append]

omit [RandomSource γ] in
/-- A finished trial, with advice from experts that the agent knows, is learned without failing; each
expert is judged at most once. -/
theorem learn_yields {trial : Trial α} (state_of : states.Reads trial.state)
    (action_of : actions.Reads trial.action) {advice : AdviceBundle}
    (heard : advice.From ids (· ∈ actions.assignments)) (n : Nat) :
    Step.Yields (Ready (α := α) (γ := γ) states actions ids acted fun _ => n) (learn trial advice)
      fun _ agent => agent.Ready states actions ids acted fun _ => n + 1 := by
  refine Step.Yields.read_bind fun agent ready => ?_
  have known : advice.names.find? (fun id => !agent.experts.contains id) = none := by
    refine List.find?_eq_none.2 fun id hid => ?_
    obtain ⟨known, found⟩ := NameMap.mem_names.1 ((ready.names id).2 (heard.names id hid))
    simp [NameMap.contains, found]
  rw [known]
  have counted : Step.Yields (Ready (α := α) (γ := γ) states actions ids acted fun _ => n)
      (modify fun agent : TrustAgent α γ => { agent with learned := agent.learned + 1 })
      fun _ => Ready states actions ids acted fun _ => n :=
    Step.Yields.change fun _ k => { k with }
  have moved : Step.Yields (Ready (α := α) (γ := γ) states actions ids acted fun _ => n)
      ((GreedyLearner.learn trial).within (fun agent : TrustAgent α γ => agent.base)
        fun agent base => { agent with base })
      fun _ => Ready states actions ids acted fun _ => n :=
    (GreedyLearner.learn_yields state_of action_of).within (fun _ k => k.base)
      fun agent k _ base spans =>
        ({ k with base := spans } : Ready states actions ids acted (fun _ => n) { agent with base })
  refine counted.bind fun _ => moved.bind fun _ => ?_
  refine (judges_yields state_of heard.advice agent.experts.names).imp (fun _ k => k) ?_
  intro _ after ready'
  refine ready'.mono fun id => Nat.add_le_add_left ?_ n
  exact List.nodup_iff_count_le_one.1 agent.experts.nodup_names id

end TrustAgent

end Counsel
