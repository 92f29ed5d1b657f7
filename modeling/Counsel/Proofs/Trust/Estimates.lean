/-
What the estimates of a learner are after any trials. The cell of a state and a joint action is the one that
the joined layout gives both together (`ActionValues.cell_eq_indexOf`), and no other pair has it
(`ActionValues.cell_inj`). So a cell holds what the rewards of its own pair make of the initial value, be it
their average or a moving one (`ActionValues.learned_trained`), and the greedy choice is the first joint
action of the highest estimate (`ActionValues.estimates_of_trials`).
-/
import Counsel.Proofs.MixedRadix
import Counsel.Proofs.Trust.Run

namespace Counsel

open Outcome

namespace ActionValues

variable {α γ : Type} {states actions joint : Layout} {state action : Assignment}

/-! ## Cells -/

/-- A state and a joint action have a cell of their own. -/
theorem cell_inj {q : ActionValues α} {state' action' : Assignment} {i j : Nat}
    (hi : q.cell state action = .ok i) (hj : q.cell state' action' = .ok j) :
    i = j ↔ q.states.Agree state state' ∧ q.actions.Agree action action' := by
  obtain ⟨s, a, hs, ha, rfl⟩ := cell_eq_ok.1 hi
  obtain ⟨s', a', hs', ha', rfl⟩ := cell_eq_ok.1 hj
  rw [Layout.agree_iff hs hs', Layout.agree_iff ha ha']
  have lt := Layout.indexOf_lt ha
  have lt' := Layout.indexOf_lt ha'
  have pos := q.actions.size_pos
  constructor
  · intro same
    have blocks := congrArg (· / q.actions.size) same
    simp only [Nat.mul_comm _ q.actions.size, Nat.mul_add_div pos, Nat.div_eq_of_lt lt,
      Nat.div_eq_of_lt lt', Nat.add_zero] at blocks
    subst blocks
    exact ⟨rfl, Nat.add_left_cancel same⟩
  · rintro ⟨rfl, rfl⟩
    rfl

/-- The cell of a state and a joint action is the one that the joined layout gives both together, and what is
wrong with the one is wrong with the other. -/
theorem cell_eq_indexOf {q : ActionValues α} (joined : q.states.join q.actions = .ok joint)
    (state_of : q.states.Covers state) (action_of : q.actions.Covers action) :
    q.cell state action = joint.indexOf (Assignment.merge state action) := by
  have places := Layout.places_of_join joined
  have nodup := joint.nodup_names
  rw [Layout.names_of_join joined] at nodup
  have apart : ∀ name ∈ q.states.names, name ∉ q.actions.names := fun name hs ha =>
    (List.nodup_append.1 nodup).2.2 name hs name ha rfl
  -- neither part assigns a name of the other
  have left : ∀ place ∈ q.states.places,
      Layout.position (Assignment.merge state action) place = Layout.position state place := by
    intro place hp
    refine Layout.position_congr ?_
    rw [Assignment.merge, NameMap.get?_union]
    rcases held : action.get? place.1 with _ | value
    · exact Option.none_or
    · exact absurd (action_of _ _ held) (apart _ (List.mem_map_of_mem hp))
  have right : ∀ place ∈ q.actions.places,
      Layout.position (Assignment.merge state action) place = Layout.position action place := by
    intro place hp
    refine Layout.position_congr ?_
    rw [Assignment.merge, NameMap.get?_union]
    rcases held : state.get? place.1 with _ | value
    · exact Option.or_none
    · exact absurd (List.mem_map_of_mem hp) (apart _ (state_of _ _ held))
  rw [cell, Layout.indexOf, Layout.indexOf, Layout.indexOf, places, List.mapM_append, mapM_congr left,
    mapM_congr right]
  rcases hs : q.states.places.mapM (Layout.position state) with e | digits
  · rfl
  · rcases ha : q.actions.places.mapM (Layout.position action) with e | digits'
    · rfl
    · have length : (Layout.bases q.states.places).length = digits.length := by
        rw [Layout.bases, List.length_map, (mapM_eq_ok.1 hs).length_eq]
      show Except.ok (MixedRadix.encode (Layout.bases q.states.places) digits *
        MixedRadix.size (Layout.bases q.actions.places) + MixedRadix.encode _ digits') = Except.ok _
      rw [← MixedRadix.encode_append length, Layout.bases, Layout.bases, Layout.bases, List.map_append]

/-! ## Averages -/

/-- The average of some rewards, or the initial value if there are none. -/
def mean (initial : Rat) (rewards : List Rat) : Rat :=
  if rewards = [] then initial else rewards.sum / rewards.length

/-- The moving average of some rewards: what is left of the initial value and of each reward has faded by a
factor with each reward that came later. -/
def faded (rate initial : Rat) (rewards : List Rat) : Rat :=
  (1 - rate) ^ rewards.length * initial +
    ∑ i ∈ Finset.range rewards.length, rate * (1 - rate) ^ (rewards.length - (i + 1)) * rewards.getD i 0

theorem mean_concat (initial : Rat) (rewards : List Rat) (reward : Rat) :
    mean initial (rewards ++ [reward]) = mean initial rewards +
      1 / ((rewards.length + 1 : Nat) : Rat) * (reward - mean initial rewards) := by
  have filled : rewards ++ [reward] ≠ [] := List.append_ne_nil_of_right_ne_nil _ (List.cons_ne_nil _ _)
  rw [mean, if_neg filled, List.sum_append, List.sum_singleton, List.length_append, List.length_singleton,
    mean]
  by_cases none : rewards = []
  · subst none
    simp
  · have pos : (rewards.length : Rat) ≠ 0 := Nat.cast_ne_zero.2 (mt List.length_eq_zero_iff.1 none)
    have pos' : ((rewards.length : Rat) + 1) ≠ 0 := Nat.cast_add_one_ne_zero _
    rw [if_neg none, Nat.cast_add, Nat.cast_one]
    field_simp
    ring

theorem faded_concat (rate initial : Rat) (rewards : List Rat) (reward : Rat) :
    faded rate initial (rewards ++ [reward]) = faded rate initial rewards +
      rate * (reward - faded rate initial rewards) := by
  have earlier : ∀ i ∈ Finset.range rewards.length,
      rate * (1 - rate) ^ (rewards.length + 1 - (i + 1)) * (rewards ++ [reward]).getD i 0 =
        (1 - rate) * (rate * (1 - rate) ^ (rewards.length - (i + 1)) * rewards.getD i 0) := by
    intro i hi
    have lt := Finset.mem_range.1 hi
    have place : rewards.length + 1 - (i + 1) = rewards.length - (i + 1) + 1 := by omega
    rw [List.getD_append _ _ _ _ lt, place, pow_succ]
    ring
  have last : (rewards ++ [reward]).getD rewards.length 0 = reward := by
    rw [List.getD_append_right _ _ _ _ le_rfl, Nat.sub_self, List.getD_cons_zero]
  rw [faded, List.length_append, List.length_singleton, Finset.sum_range_succ, Finset.sum_congr rfl earlier,
    ← Finset.mul_sum, last, Nat.sub_self, pow_zero, pow_succ, faded]
  ring

/-- What some rewards make of an initial value. -/
def estimate (initial : Rat) (rate : Option Rat) (rewards : List Rat) : Rat :=
  match rate with
  | none => mean initial rewards
  | some rate => faded rate initial rewards

theorem estimate_nil (initial : Rat) (rate : Option Rat) : estimate initial rate [] = initial := by
  cases rate with
  | none => simp [estimate, mean]
  | some rate => simp [estimate, faded]

/-- One more reward improves an estimate. -/
theorem improved_estimate (q : ActionValues Rat) (rewards : List Rat) (reward : Rat) :
    q.improved (estimate q.initialValue q.learningRate rewards) reward (rewards.length + 1) =
      estimate q.initialValue q.learningRate (rewards ++ [reward]) := by
  rw [improved]
  rcases q.learningRate with _ | rate
  · exact (mean_concat ..).symm
  · exact (faded_concat ..).symm

/-! ## Trials -/

variable [Scalar α]

/-- The estimates after a trial; one that is refused leaves them as they are. -/
def attempt (q : ActionValues α) (trial : Trial α) : ActionValues α :=
  match q.update trial.state trial.action trial.reward with
  | .ok (_, after) => after
  | .error _ => q

/-- The estimates after some trials. -/
def trained (q : ActionValues α) (trials : List (Trial α)) : ActionValues α := trials.foldl attempt q

omit [Scalar α] in
/-- The trials of a state and a joint action, in order. -/
def trialsOf (states actions : Layout) (state action : Assignment) (trials : List (Trial α)) :
    List (Trial α) :=
  trials.filter fun trial =>
    decide (states.Agree trial.state state ∧ actions.Agree trial.action action)

omit [Scalar α] in
/-- The rewards of a state and a joint action, in order. -/
def rewardsOf (states actions : Layout) (state action : Assignment) (trials : List (Trial α)) : List α :=
  (trialsOf states actions state action trials).map (·.reward)

omit [Scalar α] in
theorem rewardsOf_concat (trials : List (Trial α)) (trial : Trial α) :
    rewardsOf states actions state action (trials ++ [trial]) =
      rewardsOf states actions state action trials ++
        if states.Agree trial.state state ∧ actions.Agree trial.action action then [trial.reward] else [] := by
  rw [rewardsOf, trialsOf, List.filter_append, List.map_append, rewardsOf, trialsOf]
  by_cases same : states.Agree trial.state state ∧ actions.Agree trial.action action
  · rw [if_pos same, List.filter_singleton, decide_eq_true same]
    rfl
  · rw [if_neg same, List.filter_singleton, decide_eq_false same]
    rfl

omit [Scalar α] in
/-- Trials of other pairs do not matter. -/
theorem rewardsOf_trialsOf (trials : List (Trial α)) :
    rewardsOf states actions state action (trialsOf states actions state action trials) =
      rewardsOf states actions state action trials := by
  rw [rewardsOf, trialsOf, trialsOf, List.filter_filter, rewardsOf, trialsOf]
  simp only [Bool.and_self]

theorem trained_concat (q : ActionValues α) (trials : List (Trial α)) (trial : Trial α) :
    q.trained (trials ++ [trial]) = (q.trained trials).attempt trial := by
  rw [trained, List.foldl_append]
  rfl

/-- Estimates that were learned from some trials: the cell of each pair holds what the rewards of that pair
make of the initial value, and how many there were. -/
structure Learned (fresh : ActionValues Rat) (trials : List (Trial Rat)) (q : ActionValues Rat) : Prop where
  frame : q.reset = fresh.reset
  held : ∀ state action i, fresh.cell state action = .ok i →
    q.values.at? i = some (estimate fresh.initialValue fresh.learningRate
      (rewardsOf fresh.states fresh.actions state action trials)) ∧
    q.visits.at? i = some (rewardsOf fresh.states fresh.actions state action trials).length

namespace Learned

variable {fresh q : ActionValues Rat} {trials : List (Trial Rat)} {trial : Trial Rat}

theorem states_eq (learned : Learned fresh trials q) : q.states = fresh.states :=
  congrArg (fun q => q.states) learned.frame

theorem actions_eq (learned : Learned fresh trials q) : q.actions = fresh.actions :=
  congrArg (fun q => q.actions) learned.frame

theorem initialValue_eq (learned : Learned fresh trials q) : q.initialValue = fresh.initialValue :=
  congrArg (fun q => q.initialValue) learned.frame

theorem learningRate_eq (learned : Learned fresh trials q) : q.learningRate = fresh.learningRate :=
  congrArg (fun q => q.learningRate) learned.frame

theorem cell_eq (learned : Learned fresh trials q) (state action : Assignment) :
    q.cell state action = fresh.cell state action := by
  rw [cell, cell, learned.states_eq, learned.actions_eq]

/-- A trial that is refused is a trial of no pair. -/
theorem attempt_refused (learned : Learned fresh trials q) {e : LayoutError}
    (refused : q.update trial.state trial.action trial.reward = .error e) :
    Learned fresh (trials ++ [trial]) q := by
  refine ⟨learned.frame, fun state action i hi => ?_⟩
  have other : ¬ (fresh.states.Agree trial.state state ∧ fresh.actions.Agree trial.action action) := by
    rintro ⟨sa, aa⟩
    have same : q.cell trial.state trial.action = .ok i := by
      rw [learned.cell_eq, cell, Layout.indexOf_congr sa, Layout.indexOf_congr aa]
      exact hi
    rw [update_eq_ok.2 ⟨i, same, rfl, rfl⟩] at refused
    cases refused
  rw [rewardsOf_concat, if_neg other, List.append_nil]
  exact learned.held state action i hi

/-- A trial counts for its own pair and for no other. -/
theorem attempt_taken (learned : Learned fresh trials q) {value : Rat} {after : ActionValues Rat}
    (taken : q.update trial.state trial.action trial.reward = .ok (value, after)) :
    Learned fresh (trials ++ [trial]) after := by
  refine ⟨(reset_update taken).trans learned.frame, fun state action j hj => ?_⟩
  obtain ⟨i, hi, rfl, rfl⟩ := update_eq_ok.1 taken
  rw [learned.cell_eq] at hi
  obtain ⟨value, visits⟩ := learned.held _ _ i hi
  have lt : i < q.values.layout.size := StateTable.lt_of_at? value
  have lt' : i < q.visits.layout.size := StateTable.lt_of_at? visits
  simp only [StateTable.at?_setAt lt, StateTable.at?_setAt lt']
  rw [rewardsOf_concat]
  by_cases same : i = j
  · subst same
    have agree := (cell_inj hi hj).1 rfl
    obtain ⟨value', visits'⟩ := learned.held state action i hj
    rw [if_pos rfl, if_pos rfl, if_pos agree, value', visits', Option.getD_some, Option.getD_some,
      ← learned.initialValue_eq, ← learned.learningRate_eq, improved_estimate, List.length_append,
      List.length_singleton]
    exact ⟨rfl, rfl⟩
  · have other := mt (cell_inj hi hj).2 same
    rw [if_neg same, if_neg same, if_neg other, List.append_nil]
    exact learned.held state action j hj

/-- One more trial. -/
theorem attempt (learned : Learned fresh trials q) (trial : Trial Rat) :
    Learned fresh (trials ++ [trial]) (q.attempt trial) := by
  rw [ActionValues.attempt]
  rcases moved : q.update trial.state trial.action trial.reward with e | ⟨value, after⟩
  · exact learned.attempt_refused moved
  · exact learned.attempt_taken moved

end Learned

/-- Nothing was learned before the first trial. -/
theorem learned_nil {config : LearnerConfig Rat} {fresh : ActionValues Rat}
    (made : ofConfig states actions config = .ok fresh) : Learned fresh [] fresh := by
  refine ⟨rfl, fun state action i hi => ?_⟩
  have laid := laid_of_ofConfig made
  obtain ⟨-, joint, joined, rfl⟩ := ofConfig_eq_ok.1 made
  obtain ⟨s, a, hs, ha, rfl⟩ := cell_eq_ok.1 hi
  have lt : s * actions.size + a < joint.size := by
    have block := block_le laid (Layout.indexOf_lt hs)
    have within := Layout.indexOf_lt ha
    rw [StateTable.size_cells] at block
    exact Nat.lt_of_lt_of_le (Nat.add_lt_add_left within _) block
  refine ⟨?_, StateTable.at?_replicate lt⟩
  exact (StateTable.at?_replicate lt).trans (congrArg some (estimate_nil ..).symm)

/-- Any trials. -/
theorem learned_trained {config : LearnerConfig Rat} {fresh : ActionValues Rat}
    (made : ofConfig states actions config = .ok fresh) (trials : List (Trial Rat)) :
    Learned fresh trials (fresh.trained trials) := by
  induction trials using List.reverseRecOn with
  | nil => exact learned_nil made
  | append_singleton earlier trial ih => exact trained_concat fresh earlier trial ▸ ih.attempt trial

/-! ## What is read off the estimates -/

namespace Learned

variable {fresh q : ActionValues Rat} {trials : List (Trial Rat)}

theorem visitCount_eq (learned : Learned fresh trials q) (state action : Assignment) :
    q.visitCount state action = (fresh.cell state action).map fun _ =>
      (rewardsOf fresh.states fresh.actions state action trials).length := by
  rw [visitCount, learned.cell_eq]
  rcases hi : fresh.cell state action with e | i
  · rfl
  · rw [ok_bind, (learned.held state action i hi).2]
    rfl

theorem value_eq (learned : Learned fresh trials q) (state action : Assignment) :
    q.value state action = (fresh.cell state action).map fun _ =>
      estimate fresh.initialValue fresh.learningRate
        (rewardsOf fresh.states fresh.actions state action trials) := by
  rw [value, learned.cell_eq]
  rcases hi : fresh.cell state action with e | i
  · rfl
  · rw [ok_bind, (learned.held state action i hi).1]
    rfl

end Learned

/-- In a state each joint action is listed with its value, in the order of the indices, and the first one of
the greatest value is the greedy one. -/
structure Ranked (q : ActionValues Rat) (state : Assignment) (listed : List (Assignment × Rat)) : Prop where
  scores : q.scores state = .ok listed
  length : listed.length = q.actions.size
  entry : ∀ i < q.actions.size, ∃ action value, listed[i]? = some (action, value) ∧
    q.actions.assignmentAt i = .ok action ∧ q.actions.indexOf action = .ok i ∧
    q.value state action = .ok value
  greedy : ∃ (i : Nat) (best : Assignment × Rat), listed[i]? = some best ∧ q.greedy state = .ok best ∧
    (∀ e ∈ listed, e.2 ≤ best.2) ∧ ∀ j < i, ∀ e ∈ listed[j]?, e.2 < best.2

theorem exists_ranked {q : ActionValues Rat} (laid : q.Laid) (distinct : q.actions.Distinct)
    (state_of : q.states.Reads state) : ∃ listed, q.Ranked state listed := by
  obtain ⟨s, hs⟩ := state_of
  obtain ⟨values, read, worth⟩ := stateValues_eq laid distinct hs
  have count : q.actions.assignments.length = q.actions.size := by
    rw [Layout.assignments_eq, List.length_map, List.length_range]
  have length : values.length = q.actions.size := worth.length_eq ▸ count
  have action_at : ∀ i < q.actions.size, ∃ action, q.actions.assignments[i]? = some action ∧
      q.actions.assignmentAt i = .ok action ∧ q.actions.indexOf action = .ok i := by
    intro i lt
    refine ⟨_, ?_, Layout.assignmentAt_of_lt lt, Layout.indexOf_assignmentAt distinct lt⟩
    rw [Layout.assignments_eq, List.getElem?_map, List.getElem?_range lt]
    rfl
  refine ⟨q.actions.assignments.zip values, ?_, ?_, ?_, ?_⟩
  · rw [scores, read, ok_bind, pure_eq_ok]
  · rw [List.length_zip, count, length, Nat.min_self]
  · intro i lt
    obtain ⟨action, there, named, index⟩ := action_at i lt
    obtain ⟨value, held, worth⟩ := forall₂_getElem? worth there
    exact ⟨action, value, List.getElem?_zip_eq_some.2 ⟨there, held⟩, named, index, worth⟩
  · have some_value : values ≠ [] := fun none => by
      rw [none] at length
      exact absurd length.symm q.actions.size_pos.ne'
    obtain ⟨i, value, held, le, earlier⟩ := Scalar.exists_first_largest some_value
      fun value _ => Scalar.defined_rat value
    have lt : i < q.actions.size := length ▸ (List.getElem?_eq_some_iff.1 held).1
    obtain ⟨action, there, named, -⟩ := action_at i lt
    refine ⟨i, (action, value), List.getElem?_zip_eq_some.2 ⟨there, held⟩, ?_, ?_, ?_⟩
    · rw [greedy, read, ok_bind, Scalar.argmaxFirst_eq held le earlier, Option.getD_some]
      dsimp only
      rw [named, ok_bind, List.getD_eq_getElem?_getD, held]
      rfl
    · exact fun e he => le e.2 (List.of_mem_zip he).2
    · exact fun j hj e he => earlier j hj e.2 (List.getElem?_zip_eq_some.1 he).2

/-- The estimates after any trials. The cell of a state and a joint action is the one that the joined layout
gives both together. It holds how many trials there were of that pair, and what their rewards make of the
initial value; trials of other pairs do not matter, and one that is refused changes nothing. All joint actions
of a state can be ranked by their values. -/
theorem estimates_of_trials {config : LearnerConfig Rat} {fresh : ActionValues Rat}
    (made : ofConfig states actions config = .ok fresh) (distinct : actions.Distinct)
    (trials : List (Trial Rat)) :
    (∃ joint, states.join actions = .ok joint ∧
      ∀ state action, states.Covers state → actions.Covers action →
        (fresh.trained trials).cell state action = joint.indexOf (Assignment.merge state action) ∧
        (fresh.trained trials).visitCount state action =
          (joint.indexOf (Assignment.merge state action)).map
            (fun _ => (rewardsOf states actions state action trials).length) ∧
        (fresh.trained trials).value state action =
          (joint.indexOf (Assignment.merge state action)).map
            fun _ => estimate config.initialValue config.learningRate
              (rewardsOf states actions state action trials)) ∧
    (∀ state action,
      (fresh.trained trials).value state action =
        (fresh.trained (trialsOf states actions state action trials)).value state action ∧
      (fresh.trained trials).visitCount state action =
        (fresh.trained (trialsOf states actions state action trials)).visitCount state action) ∧
    (∀ state, states.Reads state → ∃ listed, (fresh.trained trials).Ranked state listed) ∧
    ∀ trial : Trial Rat, ¬ (states.Reads trial.state ∧ actions.Reads trial.action) →
      ∀ learner : GreedyLearner Rat γ, learner.values = fresh.trained trials →
        ∃ e, answer (GreedyLearner.learn trial) learner =
          (.error (.layout e), { learner with learned := learner.learned + 1 }) := by
  have laid := laid_of_ofConfig made
  have learned := learned_trained made trials
  have frame : fresh.states = states ∧ fresh.actions = actions ∧
      fresh.initialValue = config.initialValue ∧ fresh.learningRate = config.learningRate := by
    obtain ⟨-, -, -, rfl⟩ := ofConfig_eq_ok.1 made
    exact ⟨rfl, rfl, rfl, rfl⟩
  obtain ⟨rfl, rfl, initial, rate⟩ := frame
  rw [← initial, ← rate]
  refine ⟨⟨_, laid.joint, fun state action state_of action_of => ?_⟩, fun state action => ?_,
    fun state state_of => ?_, fun trial unread learner holds => ?_⟩
  · rw [← cell_eq_indexOf laid.joint state_of action_of]
    exact ⟨learned.cell_eq .., learned.visitCount_eq .., learned.value_eq ..⟩
  · have own := learned_trained made (trialsOf fresh.states fresh.actions state action trials)
    rw [learned.value_eq, learned.visitCount_eq, own.value_eq, own.visitCount_eq, rewardsOf_trialsOf]
    exact ⟨rfl, rfl⟩
  · have laid' : (fresh.trained trials).Laid := laid_reset.1 (learned.frame ▸ laid_reset.2 laid)
    refine exists_ranked laid' ?_ ?_
    · rwa [learned.actions_eq]
    · rwa [learned.states_eq]
  · -- only a state and a joint action that can be read have a cell to learn in
    rw [GreedyLearner.answer_learn, holds]
    rcases moved : (fresh.trained trials).update trial.state trial.action trial.reward with e | ⟨v, after⟩
    · exact ⟨e, rfl⟩
    · obtain ⟨i, hi, -⟩ := update_eq_ok.1 moved
      rw [learned.cell_eq] at hi
      obtain ⟨s, a, hs, ha, -⟩ := cell_eq_ok.1 hi
      exact absurd ⟨⟨s, hs⟩, a, ha⟩ unread

/-- Three trials, two of them of one pair. -/
def tries : List (Trial Rat) :=
  [⟨signal true, move true, 1⟩, ⟨signal false, move true, 5⟩, ⟨signal true, move true, 2⟩]

theorem estimates_of_tries :
    ∃ fresh, ofConfig signals moves (.standard : LearnerConfig Rat) = .ok fresh ∧ moves.Distinct ∧
      (fresh.trained tries).visitCount (signal true) (move true) = .ok 2 ∧
      (fresh.trained tries).value (signal true) (move true) = .ok (3 / 2) ∧
      ∃ listed, (fresh.trained tries).Ranked (signal true) listed := by
  have made : ∃ fresh, ofConfig signals moves (.standard : LearnerConfig Rat) = .ok fresh :=
    ⟨_, eq_ok_get (by decide +kernel)⟩
  obtain ⟨fresh, made⟩ := made
  have distinct : moves.Distinct := by decide +kernel
  obtain ⟨⟨joint, joined, read⟩, -, ranked, -⟩ := estimates_of_trials (γ := Still) made distinct tries
  have index : joint.indexOf (Assignment.merge (signal true) (move true)) = .ok 3 := by
    have found : (signals.join moves >>= fun joint =>
        joint.indexOf (Assignment.merge (signal true) (move true))) = .ok 3 := by decide +kernel
    rwa [joined] at found
  have rewards : rewardsOf signals moves (signal true) (move true) tries = [1, 2] := by decide +kernel
  have average : estimate 0 none [1, 2] = 3 / 2 := by
    show mean 0 [1, 2] = 3 / 2
    rw [mean, if_neg (List.cons_ne_nil _ _)]
    norm_num
  obtain ⟨-, visits, value⟩ := read (signal true) (move true)
    (Layout.covers_of_mem_assignments (by decide +kernel))
    (Layout.covers_of_mem_assignments (by decide +kernel))
  rw [index, rewards] at visits value
  exact ⟨fresh, made, distinct, visits, value.trans (congrArg Except.ok average),
    ranked (signal true) ⟨1, by decide +kernel⟩⟩

end ActionValues

end Counsel
