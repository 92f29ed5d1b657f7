/-
Lessons that fail. Nothing that a lesson has written is taken back, so that a failed one can leave advice
behind that is no joint action (`Agent.trace_of_flight`). But all that it leaves is what experts said about
the state of the trial, and acts in other states do not notice it; and which experts' advice is left depends
on what was wrong (`Agent.confined_of_failed`).
-/
import Counsel.Proofs.Trust.Memory

namespace Counsel

open Outcome Recollections

variable {α γ : Type} [Scalar α] {states actions : Layout} {trial : Trial α} {advice : AdviceBundle}

/-! ## Agents that weigh advice -/

namespace Acquaintance

omit [Scalar α] in
/-- What an expert said stands in its memory once it is remembered. -/
theorem get_of_remember {known : Acquaintance α} {state : Assignment} {fresh : Option Assignment}
    {memory : StateTable (Option Assignment)} (stored : known.remember state fresh = .ok memory) :
    memory.layout = known.memory.layout ∧ ∀ a, fresh = some a → ∀ other,
      known.memory.layout.Agree state other → memory.get other = .ok (some a) := by
  rcases remember_eq_ok.1 stored with ⟨rfl, rfl⟩ | ⟨a, old, rfl, set⟩
  · exact ⟨rfl, fun a said => nomatch said⟩
  · obtain ⟨layout, read⟩ := get_of_set set
    refine ⟨layout, fun b said other agree => ?_⟩
    cases said
    rw [read, if_pos agree]

omit [Scalar α] in
/-- The advice that counts is remembered, and without regular updates it is fresh. -/
theorem get_of_counted {known : Acquaintance α} {state a : Assignment} {fresh : Option Assignment}
    {memory : StateTable (Option Assignment)} (stored : known.remember state fresh = .ok memory)
    {regular : Bool} (counts : counted regular memory state fresh = .ok (some a)) :
    memory.get state = .ok (some a) ∧ (regular = false → fresh = some a) := by
  cases regular with
  | true => exact ⟨counts, fun irregular => nomatch irregular⟩
  | false =>
    have said : fresh = some a := Except.ok.inj counts
    exact ⟨(get_of_remember stored).2 a said state fun _ _ => rfl, fun _ => said⟩

end Acquaintance

namespace TrustAgent

variable {agent after : TrustAgent α γ} {e : Error}

/-- A lesson with advice from an expert that is not known changes nothing. -/
theorem learn_of_stranger (trial : Trial α) {id : ExpertId} (named : id ∈ advice.names)
    (unknown : agent.experts.contains id = false) : (answer (learn trial advice) agent).2 = agent := by
  rw [learn, answer_get_bind]
  split
  · rfl
  next none =>
    have known := List.find?_eq_none.1 none id named
    rw [unknown] at known
    exact absurd rfl known

/-- A lesson with advice from known experts moves the learner and then judges the experts. -/
theorem answer_learn_of_known (known : ∀ id ∈ advice.names, agent.experts.contains id = true) :
    answer (learn trial advice) agent =
      match agent.base.values.update trial.state trial.action trial.reward with
      | .ok (_, values) =>
        answer (agent.experts.names.forM fun id => judge trial id (advice.advice? id))
          { agent with
            learned := agent.learned + 1
            base := { agent.base with learned := agent.base.learned + 1, values } }
      | .error e =>
        (.error (.layout e),
          { agent with
            learned := agent.learned + 1
            base := { agent.base with learned := agent.base.learned + 1 } }) := by
  have none : (advice.names.find? fun id => !agent.experts.contains id) = none :=
    List.find?_eq_none.2 fun id named => by rw [known id named]; exact Bool.false_ne_true
  rw [learn, answer_get_bind, none]
  dsimp only
  rw [answer_bind, answer_modify]
  dsimp only
  rw [answer_bind, Step.answer_within, GreedyLearner.answer_learn]
  dsimp only
  rcases agent.base.values.update trial.state trial.action trial.reward with e | ⟨value, values⟩
  · rfl
  · rfl

/-- An expert that cannot be judged is remembered to have said, about the state, what is no joint action. -/
theorem recalled_of_judge_error {id : ExpertId} {fresh : Option Assignment} {known : Acquaintance α}
    (spans : agent.base.values.Spans states actions) (found : agent.experts.get? id = some known)
    (layout : known.memory.layout = states) (state_of : states.Reads trial.state)
    (fails : answer (judge trial id fresh) agent = (.error e, after)) :
    ∃ a, recalled after.recollections id trial.state = .ok (some a) ∧ ¬ actions.Reads a ∧
      (agent.config.regularUpdate = false → fresh = some a) := by
  obtain ⟨memory, stored⟩ := Acquaintance.exists_remember fresh (layout ▸ state_of)
  have kept := recollections_judge found stored
  rw [fails] at kept
  rw [kept, recalled_update_self]
  rw [answer_judge_of_remember found stored] at fails
  split at fails
  next => cases fails
  next e' broken =>
    have read_of : memory.layout.Reads trial.state :=
      ((Acquaintance.get_of_remember stored).1.trans layout) ▸ state_of
    obtain ⟨said, there⟩ := StateTable.get_eq_ok_iff.2 read_of
    rcases bind_eq_error.1 broken with unread | ⟨counted, counts, unweighed⟩
    · -- a state that is read has advice that counts, if only silence
      rw [Acquaintance.counted, there] at unread
      split at unread
      · cases unread
      · cases unread
    · cases counted with
      | none => cases unweighed
      | some a =>
        obtain ⟨held, fresh_of⟩ := Acquaintance.get_of_counted stored counts
        refine ⟨a, mapError_eq_ok.2 held, fun action_of => ?_, fresh_of⟩
        obtain ⟨verdict, judged⟩ := spans.exists_optimal state_of action_of
        rw [Acquaintance.weigh, judged] at unweighed
        cases unweighed

/-- A round of judging that fails does so at one expert. The experts up to that one are remembered to have
said what they said, and nothing has changed about the others. -/
theorem judges_failed (agent : TrustAgent α γ) {fresh : ExpertId → Option Assignment}
    {ids : List ExpertId} (nodup : ids.Nodup)
    (spans : agent.base.values.Spans states actions) (keyed : Keyed states agent.recollections)
    (state_of : states.Reads trial.state)
    (fails : answer (ids.forM fun id => judge trial id (fresh id)) agent = (.error e, after)) :
    ∃ earlier id later a, ids = earlier ++ id :: later ∧
      recalled after.recollections id trial.state = .ok (some a) ∧ ¬ actions.Reads a ∧
      (agent.config.regularUpdate = false → fresh id = some a) ∧
      (∀ other ∈ earlier ++ [id], agent.experts.contains other = true → ∀ b, fresh other = some b →
        ∀ state, states.Agree trial.state state →
          recalled after.recollections other state = .ok (some b)) ∧
      ∀ other ∉ earlier ++ [id], after.recollections other = agent.recollections other := by
  obtain ⟨earlier, id, later, between, rfl, ran, fails⟩ := answer_forM_error fails
  obtain ⟨same, apart, each⟩ := judges_eq_ok (List.nodup_append.1 nodup).1 ran
  have new : id ∉ earlier := (notMem_of_nodup nodup).1
  obtain ⟨known, found⟩ : ∃ known, between.experts.get? id = some known := by
    rcases found : between.experts.get? id with _ | known
    · rw [judge_of_unknown found] at fails
      cases fails
    · exact ⟨known, rfl⟩
  have layout : known.memory.layout = states := keyed id _ (congrArg _ ((apart id new).symm.trans found))
  obtain ⟨a, there, nonsense, fresh_of⟩ :=
    recalled_of_judge_error (same.base ▸ spans) found layout state_of fails
  obtain ⟨memory, stored⟩ := Acquaintance.exists_remember (fresh id) (layout ▸ state_of)
  -- what was said is stored before it is judged, so also where judging fails
  have left := recollections_judge found stored
  rw [fails] at left
  refine ⟨earlier, id, later, a, rfl, there, nonsense, same.config ▸ fresh_of, ?_, ?_⟩
  · intro other hother spoke b said state agree
    rw [left]
    rcases List.mem_append.1 hother with before | here
    · have ne : other ≠ id := fun e => new (e ▸ before)
      obtain ⟨old, was⟩ := Option.isSome_iff_exists.1 spoke
      obtain ⟨now, studied, is⟩ := each other before old was
      have kept : old.memory.layout = states := keyed other _ (congrArg _ was)
      have stored := Acquaintance.remember_of_study studied
      have read := (Acquaintance.get_of_remember stored).2 b said state (kept ▸ agree)
      have held : between.recollections other = some now.memory := congrArg _ is
      rw [recalled_update_of_ne ne, recalled_of_some held, read]
      rfl
    · obtain rfl := List.mem_singleton.1 here
      rw [recalled_update_self, (Acquaintance.get_of_remember stored).2 b said state (layout ▸ agree)]
      rfl
  · intro other hother
    have ne : other ≠ id := fun e => hother (e ▸ List.mem_append_right _ List.mem_cons_self)
    rw [left, Function.update_of_ne ne, recollections, recollections,
      apart other fun h => hother (List.mem_append_left _ h)]

/-- Which traces a failed lesson leaves. None if an expert was not known, and none in what is kept about the
experts if the trial was refused. Otherwise some expert is remembered to have said what is no joint action: it
and the experts before it are remembered to have said what they said, those after it as they were. -/
structure Residue (states actions : Layout) (trial : Trial α) (advice : AdviceBundle)
    (agent after : TrustAgent α γ) : Prop where
  stranger : ∀ id ∈ advice.names, agent.experts.contains id = false → after = agent
  refused : ¬ (states.Reads trial.state ∧ actions.Reads trial.action) → after.experts = agent.experts
  judged : (∀ id ∈ advice.names, agent.experts.contains id = true) → states.Reads trial.state →
    actions.Reads trial.action → ∃ earlier id later a, agent.experts.names = earlier ++ id :: later ∧
      after.remembered id trial.state = .ok (some a) ∧ ¬ actions.Reads a ∧
      (agent.config.regularUpdate = false → advice.advice? id = some a) ∧
      (∀ other ∈ earlier ++ [id], ∀ b, advice.advice? other = some b → ∀ state,
        states.Agree trial.state state → after.remembered other state = .ok (some b)) ∧
      ∀ other ∈ later, ∀ state, after.remembered other state = agent.remembered other state

theorem residue_of_failed (spans : agent.base.values.Spans states actions)
    (keyed : Keyed states agent.recollections)
    (failed : answer (learn trial advice) agent = (.error e, after)) :
    Residue states actions trial advice agent after where
  stranger id named unknown := by
    have kept := learn_of_stranger trial named unknown
    rwa [failed] at kept
  refused unread := by
    by_cases known : ∀ id ∈ advice.names, agent.experts.contains id = true
    · rw [answer_learn_of_known known] at failed
      rcases moved : agent.base.values.update trial.state trial.action trial.reward with e | ⟨v, values⟩
      · rw [moved] at failed
        cases failed
        rfl
      · obtain ⟨i, hi, -⟩ := ActionValues.update_eq_ok.1 moved
        obtain ⟨s, a, hs, ha, -⟩ := ActionValues.cell_eq_ok.1 hi
        exact absurd ⟨⟨s, spans.states ▸ hs⟩, a, spans.actions ▸ ha⟩ unread
    · obtain ⟨id, named, unknown⟩ : ∃ id ∈ advice.names, agent.experts.contains id = false := by
        simpa using known
      have kept := learn_of_stranger trial named unknown
      rw [failed] at kept
      exact congrArg _ kept
  judged known state_of action_of := by
    obtain ⟨v, values, moved, spans'⟩ := spans.exists_update state_of action_of trial.reward
    rw [answer_learn_of_known known, moved] at failed
    obtain ⟨earlier, id, later, a, split, there, nonsense, fresh_of, heard, others⟩ :=
      judges_failed
        { agent with
          learned := agent.learned + 1
          base := { agent.base with learned := agent.base.learned + 1, values } }
        agent.experts.nodup_names spans' keyed state_of failed
    have names : agent.experts.names = earlier ++ id :: later := split
    have nodup : (earlier ++ id :: later).Nodup := names ▸ agent.experts.nodup_names
    refine ⟨earlier, id, later, a, names, (remembered_eq_recalled ..).trans there, nonsense, fresh_of, ?_, ?_⟩
    · intro other hother b said state agree
      have spoke : agent.experts.contains other = true :=
        known other (AdviceBundle.mem_names_of_advice said)
      rw [remembered_eq_recalled]
      exact heard other hother spoke b said state agree
    · intro other hother state
      have out : other ∉ earlier ++ [id] := by
        intro inside
        have apart := List.nodup_append.1 (List.append_cons earlier id later ▸ nodup)
        exact apart.2.2 other inside other hother rfl
      rw [remembered_eq_recalled, remembered_eq_recalled, recalled, recalled, others other out]
      rfl

end TrustAgent

/-! ## Agents that follow advice -/

namespace Follower

variable {agent after : Follower α γ} {e : Error}

omit [Scalar α] in
/-- After a loop that went well everyone is remembered to have said what they said. -/
theorem recalled_of_loop {state : Assignment} {entries : List (ExpertId × Assignment)}
    (said : ∀ entry ∈ entries, advice.advice? entry.1 = some entry.2)
    (keyed : Keyed states agent.recollections)
    (ran : answer (entries.forM (remember state)) agent = (.ok (), after)) :
    ∀ entry ∈ entries, ∀ other, states.Agree state other →
      recalled after.recollections entry.1 other = .ok (some entry.2) := by
  induction entries generalizing agent with
  | nil => exact fun _ h => absurd h List.not_mem_nil
  | cons head rest ih =>
    obtain ⟨⟨⟩, between, first, next⟩ : ∃ _ between,
        answer (remember state head) agent = (.ok (), between) ∧
          answer (rest.forM (remember state)) between = (.ok (), after) := answer_bind_ok.1 ran
    obtain ⟨here, others⟩ := List.forall_mem_cons.1 said
    have keyed' : Keyed states between.recollections := by
      have written := remember_written here agent (Written.refl state advice keyed)
      rw [first] at written
      exact written.keyed
    intro entry hentry other agree
    rcases List.mem_cons.1 hentry with rfl | later
    · -- what is remembered first stays remembered in the rest of the loop
      refine (written_of_loop others keyed' next).recalled_of_said here ?_
      rcases remember_cases state entry agent with ⟨memory, old, table, found, set, done⟩ | ⟨e, done, -⟩
      · rw [first] at done
        cases done
        obtain ⟨layout, read⟩ := get_of_set set
        rw [keyed _ memory found] at read
        rw [recollections_insert, recalled_update_self, read, if_pos agree]
        rfl
      · rw [first] at done
        cases done
    · exact ih others keyed' next entry later other agree

omit [Scalar α] in
/-- What known experts say about a state that is read can be remembered. -/
theorem exists_loop {state : Assignment} {entries : List (ExpertId × Assignment)}
    (said : ∀ entry ∈ entries, advice.advice? entry.1 = some entry.2)
    (known : ∀ entry ∈ entries, agent.memory.contains entry.1 = true)
    (keyed : Keyed states agent.recollections) (state_of : states.Reads state) :
    ∃ after, answer (entries.forM (remember state)) agent = (.ok (), after) := by
  rcases ran : answer (entries.forM (remember state)) agent with ⟨e | u, after⟩
  · exfalso
    obtain ⟨earlier, entry, later, between, rfl, ran, fails⟩ := answer_forM_error ran
    have mem : entry ∈ earlier ++ entry :: later := List.mem_append_right _ List.mem_cons_self
    have before : ∀ x ∈ earlier, advice.advice? x.1 = some x.2 := fun x hx =>
      said x (List.mem_append_left _ hx)
    have written := written_of_loop before keyed ran
    -- an expert that was known at first is known at its turn
    obtain ⟨held, hheld⟩ : ∃ said, recalled between.recollections entry.1 state = .ok said := by
      obtain ⟨memory, found⟩ := Option.isSome_iff_exists.1 (known entry mem)
      obtain ⟨was, hwas⟩ := exists_recalled.2 ⟨memory, found, (keyed _ memory found).symm ▸ state_of⟩
      rcases written.recalled entry.1 state with same | ⟨-, a, -, now⟩
      · exact ⟨was, same.trans hwas⟩
      · exact ⟨some a, now⟩
    obtain ⟨memory, found, reads⟩ := exists_recalled.1 ⟨held, hheld⟩
    rcases remember_cases state entry between with ⟨_, _, _, -, -, done⟩ | ⟨_, -, unread⟩
    · rw [fails] at done
      cases done
    · exact unread memory found reads
  · exact ⟨after, rfl⟩

/-- Which traces a failed lesson leaves. None in the memories if the state of the trial was refused. If every
expert that spoke is known, it was the trial that was refused, after everyone was remembered. -/
structure Residue (states actions : Layout) (trial : Trial α) (advice : AdviceBundle)
    (agent after : Follower α γ) : Prop where
  refused : ¬ states.Reads trial.state → after.memory = agent.memory
  heard : (∀ id a, advice.advice? id = some a → agent.memory.contains id = true) →
    states.Reads trial.state → ¬ actions.Reads trial.action ∧ ∀ id a, advice.advice? id = some a →
      ∀ state, states.Agree trial.state state → after.remembered id state = .ok (some a)

theorem residue_of_failed (ready : agent.base.Ready states actions)
    (keyed : Keyed states agent.recollections)
    (failed : answer (learn trial advice) agent = (.error e, after)) :
    Residue states actions trial advice agent after where
  refused unread := by
    -- a memory stores nothing for a state that it cannot read
    have loop : Step.Keeps (Step.Retains fun s : Follower α γ => s.memory = agent.memory)
        (learn trial advice) := by
      refine Step.Keeps.bind (.forM fun entry _ s kept => ?_) fun _ _ => id
      rcases remember_cases trial.state entry s with ⟨memory, old, table, found, set, -⟩ | ⟨e, ran, -⟩
      · obtain ⟨i, hi, -⟩ := StateTable.set_eq_ok set
        rw [kept] at found
        exact absurd ⟨i, keyed _ memory found ▸ hi⟩ unread
      · rwa [ran]
    have kept := loop agent rfl
    rwa [failed] at kept
  heard known state_of := by
    have said : ∀ entry ∈ advice.given, advice.advice? entry.1 = some entry.2 := fun _ given =>
      AdviceBundle.mem_given.1 given
    obtain ⟨heard, ran⟩ :=
      exists_loop said (fun entry given => known _ _ (said entry given)) keyed state_of
    rw [learn, answer_bind_of_ok ran, Step.answer_within, GreedyLearner.answer_learn] at failed
    have base : heard.base = agent.base := by
      have loop : Step.Keeps (Step.Retains fun s : Follower α γ => s.base = agent.base)
          (advice.given.forM (remember trial.state)) :=
        .forM fun entry _ => remember_base (· = agent.base) trial.state entry
      have kept := loop agent rfl
      rwa [ran] at kept
    refine ⟨fun action_of => ?_, fun id a spoken state agree => ?_⟩
    · obtain ⟨value, values, moved, -⟩ :=
        ActionValues.Spans.exists_update ready state_of action_of trial.reward
      rw [base, moved] at failed
      cases failed
    · have stored := recalled_of_loop said keyed ran (id, a) (AdviceBundle.mem_given.2 spoken) state agree
      split at failed
      · cases failed
      · cases failed
        exact stored

end Follower

/-! ## Agents that take advice -/

namespace Agent

/-- All that a failed lesson leaves is what experts said about the state of the trial. Acts in states for which
nothing is left go as they would with the memories from before the lesson. -/
structure Confined {κ : Type} (remembered : κ → ExpertId → Assignment → Except Error (Option Assignment))
    (withMemoriesOf : κ → κ → κ) (act : Assignment → Bool → Step κ Assignment) (states : Layout)
    (state : Assignment) (advice : AdviceBundle) (agent after : κ) : Prop where
  elsewhere : ∀ id other, ¬ states.Agree state other → remembered after id other = remembered agent id other
  here : ∀ id other, states.Agree state other → remembered after id other = remembered agent id other ∨
    ∃ a, advice.advice? id = some a ∧ remembered after id other = .ok (some a)
  acts : ∀ requests : List (Assignment × Bool),
    (∀ r ∈ requests, ∀ id, remembered after id r.1 = remembered agent id r.1) →
      Step.replies (fun r => act r.1 r.2) requests (withMemoriesOf agent after) =
        Step.replies (fun r => act r.1 r.2) requests after

/-- What a failed lesson leaves, in agents that weigh advice and in agents that follow it. -/
theorem confined_of_failed [RandomSource γ] (trial : Trial α) (advice : AdviceBundle) :
    (∀ (learning : LearnerConfig α) (config : TrustConfig α) (agent after : TrustAgent α γ) (e : Error),
      agent.Arises states actions learning config →
      answer (TrustAgent.learn trial advice) agent = (.error e, after) →
        Confined TrustAgent.remembered TrustAgent.withMemoriesOf TrustAgent.act states trial.state advice
          agent after ∧
        TrustAgent.Residue states actions trial advice agent after) ∧
    ∀ (learning : LearnerConfig α) (agent after : Follower α γ) (e : Error),
      agent.Arises states actions learning →
      answer (Follower.learn trial advice) agent = (.error e, after) →
        Confined Follower.remembered Follower.withMemoriesOf Follower.act states trial.state advice
          agent after ∧
        Follower.Residue states actions trial advice agent after := by
  refine ⟨fun learning config agent after e arises failed => ?_, fun learning agent after e arises failed => ?_⟩
  · have written := TrustAgent.learn_written _ (Written.refl trial.state advice arises.keyed)
    rw [failed] at written
    have spans := (ActionValues.spans_of_ofConfig arises.fresh.1).of_reset
    refine ⟨⟨?_, ?_, ?_⟩, TrustAgent.residue_of_failed spans arises.keyed failed⟩
    · intro id other apart
      rw [TrustAgent.remembered_eq_recalled, TrustAgent.remembered_eq_recalled]
      exact written.recalled_elsewhere apart
    · intro id other _
      rw [TrustAgent.remembered_eq_recalled, TrustAgent.remembered_eq_recalled]
      exact (written.recalled id other).imp_right And.right
    · intro requests same
      have kept : after.SameExperts after := rfl
      exact Step.Ignores.replies_eq (fun r hr => TrustAgent.act_ignores (same r hr) r.2) kept
  · have written := Follower.learn_written _ (Written.refl trial.state advice arises.keyed.2)
    rw [failed] at written
    refine ⟨⟨?_, ?_, ?_⟩, Follower.residue_of_failed arises.keyed.1.ready arises.keyed.2 failed⟩
    · exact fun id other apart => written.recalled_elsewhere apart
    · exact fun id other _ => (written.recalled id other).imp_right And.right
    · intro requests same
      have kept : after.memory = after.memory := rfl
      exact Step.Ignores.replies_eq (fun r hr => Follower.act_ignores (same r hr) r.2) kept

/-- A way out that is no move. -/
def flight : Assignment := .ofList [("Move", .text "fly")]

/-- A trial in which the scout advises flight. -/
def astray : Trial Rat × AdviceBundle := (⟨signal true, move true, 1⟩, .ofList [("scout", some flight)])

/-- A trial whose action is no move, and the scout advises to go. -/
def aloft : Trial Rat × AdviceBundle := (⟨signal true, flight, 1⟩, .ofList [("scout", some (move true))])

/-- A follower of the scout. -/
def trailer : Follower Rat Still := (Follower.ofLearner beginner 0).reset ["scout"]

theorem arises_trailer : trailer.Arises signals moves .standard :=
  .reset ["scout"] (.made (.made (eq_ok_get _)) 0)

theorem confined_of_astray :
    (∃ after, answer (TrustAgent.learn astray.1 astray.2) (novice.reset ["scout"]) =
        (.error (.layout (.unknownValue "Move" (.text "fly"))), after) ∧
      Confined TrustAgent.remembered TrustAgent.withMemoriesOf TrustAgent.act signals (signal true) astray.2
        (novice.reset ["scout"]) after) ∧
    ∃ after, answer (Follower.learn aloft.1 aloft.2) trailer =
        (.error (.layout (.unknownValue "Move" (.text "fly"))), after) ∧
      Confined Follower.remembered Follower.withMemoriesOf Follower.act signals (signal true) aloft.2
        trailer after := by
  have weighing : answer (TrustAgent.learn astray.1 astray.2) (novice.reset ["scout"]) =
      (.error (.layout (.unknownValue "Move" (.text "fly"))),
        (answer (TrustAgent.learn astray.1 astray.2) (novice.reset ["scout"])).2) :=
    Prod.ext (by decide +kernel) rfl
  have following : answer (Follower.learn aloft.1 aloft.2) trailer =
      (.error (.layout (.unknownValue "Move" (.text "fly"))),
        (answer (Follower.learn aloft.1 aloft.2) trailer).2) :=
    Prod.ext (by decide +kernel) rfl
  have arises := TrustAgent.Arises.reset ["scout"] arises_novice
  exact ⟨⟨_, weighing, ((confined_of_failed astray.1 astray.2).1 _ _ _ _ _ arises weighing).1⟩,
    _, following, ((confined_of_failed aloft.1 aloft.2).2 _ _ _ _ arises_trailer following).1⟩

/-- A lesson that failed, and yet what the scout said is remembered: by one agent although it is no move, so
that it cannot explore in that state any more; by the other although the trial was refused. -/
theorem trace_of_flight :
    (let agent := novice.reset ["scout"]
     let (result, after) := answer (TrustAgent.learn astray.1 astray.2) agent
     agent.Arises signals moves .standard .standard ∧
      result = .error (.layout (.unknownValue "Move" (.text "fly"))) ∧
      agent.remembered "scout" (signal true) = .ok none ∧
      after.remembered "scout" (signal true) = .ok (some flight) ∧
      (answer (TrustAgent.act (signal true) true) after).1 =
        .error (.layout (.unknownValue "Move" (.text "fly"))) ∧
      (answer (TrustAgent.act (signal true) true) (TrustAgent.withMemoriesOf agent after)).1 =
        .ok (move false)) ∧
    (let (result, after) := answer (Follower.learn aloft.1 aloft.2) trailer
     trailer.Arises signals moves .standard ∧
      result = .error (.layout (.unknownValue "Move" (.text "fly"))) ∧
      trailer.remembered "scout" (signal true) = .ok none ∧
      after.remembered "scout" (signal true) = .ok (some (move true)) ∧
      (answer (Follower.act (signal true) false) after).1 = .ok (move true) ∧
      (answer (Follower.act (signal true) false) (Follower.withMemoriesOf trailer after)).1 =
        .ok (move false)) := by
  have arises := TrustAgent.Arises.reset ["scout"] arises_novice
  exact ⟨⟨arises, by decide +kernel⟩, arises_trailer, by decide +kernel⟩

end Agent

end Counsel
