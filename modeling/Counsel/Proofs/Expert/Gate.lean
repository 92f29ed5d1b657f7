/-
When a gate opens. Its sums are those of the trials since it last opened (`Gate.Tracks`), so after an
opening the next one is at the first trial by which the interval has passed and the average regret since
the opening has reached the tolerance (`Gate.next_opening`). Openings are therefore at least an interval
apart.
-/
import Mathlib
import Counsel.Expert.Gate

namespace Counsel

namespace Gate

/-! ## Runs of a gate -/

section Runs

variable {α : Type} [Scalar α]

/-- A gate after some trials, each of which says what the best action and the action taken are worth. -/
def after (gate : Gate α) (trials : List (α × α)) : Gate α :=
  trials.foldl (fun gate trial => (gate.observe trial.1 trial.2).2) gate

/-- Whether a gate opens, trial by trial. -/
def answers (gate : Gate α) : List (α × α) → List Bool
  | [] => []
  | trial :: rest =>
    (gate.observe trial.1 trial.2).1 :: answers (gate.observe trial.1 trial.2).2 rest

/-- The trials at which a gate opens. The first trial is number one. -/
def openings (gate : Gate α) (trials : List (α × α)) : List Nat :=
  ((gate.answers trials).zipIdx 1).filterMap fun (opened, number) => if opened then some number else none

theorem after_append (gate : Gate α) (past later : List (α × α)) :
    gate.after (past ++ later) = (gate.after past).after later := List.foldl_append

theorem answers_append (gate : Gate α) (past later : List (α × α)) :
    gate.answers (past ++ later) = gate.answers past ++ (gate.after past).answers later := by
  induction past generalizing gate with
  | nil => rfl
  | cons first past ih => exact congrArg (_ :: ·) (ih _)

theorem after_concat (gate : Gate α) (past : List (α × α)) (trial : α × α) :
    gate.after (past ++ [trial]) = ((gate.after past).observe trial.1 trial.2).2 := gate.after_append past [trial]

theorem answers_concat (gate : Gate α) (past : List (α × α)) (trial : α × α) :
    gate.answers (past ++ [trial]) =
      gate.answers past ++ [((gate.after past).observe trial.1 trial.2).1] := gate.answers_append past [trial]

theorem length_answers (gate : Gate α) (trials : List (α × α)) :
    (gate.answers trials).length = trials.length := by
  induction trials generalizing gate with
  | nil => rfl
  | cons trial rest ih => rw [answers, List.length_cons, List.length_cons, ih]

theorem openings_concat (gate : Gate α) (past : List (α × α)) (trial : α × α) :
    gate.openings (past ++ [trial]) = gate.openings past ++
      if ((gate.after past).observe trial.1 trial.2).1 then [past.length + 1] else [] := by
  rw [openings, answers_concat, List.zipIdx_append, List.filterMap_append, ← openings, length_answers,
    List.zipIdx_singleton, Nat.add_comm 1]
  cases ((gate.after past).observe trial.1 trial.2).1 <;> rfl

/-- A gate that opens starts again from zero. -/
theorem observe_snd (gate : Gate α) (optimal agent : α) : (gate.observe optimal agent).2 =
    if (gate.observe optimal agent).1 then
      { gate.add optimal agent with lastOpening := gate.trial + 1, optimalSum := 0, agentSum := 0 }
    else gate.add optimal agent := by
  unfold observe
  simp only
  split
  · rfl
  · split <;> rfl

end Runs

/-! ## What the sums are -/

variable {config : DisclosureConfig Rat} {gate : Gate Rat} {trials past : List (Rat × Rat)}
  {trial : Rat × Rat} {t i : Nat}

/-- The regret of the trials after trial `t`, up to trial `i`. -/
def regret (trials : List (Rat × Rat)) (t i : Nat) : Rat :=
  (((trials.take i).drop t).map fun trial => trial.1 - trial.2).sum

/-- After an opening at trial `t` enough trials have passed by trial `i`, and enough regret has come up. -/
def Due (config : DisclosureConfig Rat) (trials : List (Rat × Rat)) (t i : Nat) : Prop :=
  config.interval ≤ i - t ∧ config.tolerance * ((i - t : Nat) : Rat) ≤ regret trials t i

/-- The trials after trial `t` at which a gate that last opened there is due. -/
def ripe (config : DisclosureConfig Rat) (trials : List (Rat × Rat)) (t : Nat) : Set Nat :=
  {i | t < i ∧ i ≤ trials.length ∧ Due config trials t i}

/-- A gate opens exactly when it is due by its own counts and sums. -/
theorem observe_fst (before : gate.lastOpening ≤ gate.trial) (optimal agent : Rat) :
    (gate.observe optimal agent).1 = true ↔
      gate.config.interval ≤ gate.trial + 1 - gate.lastOpening ∧
        gate.config.tolerance * ((gate.trial + 1 - gate.lastOpening : Nat) : Rat) ≤
          gate.optimalSum + optimal - (gate.agentSum + agent) := by
  have elapsed : (gate.add optimal agent).elapsed = gate.trial + 1 - gate.lastOpening := rfl
  have some_elapsed : gate.trial + 1 - gate.lastOpening ≠ 0 := by omega
  have counted : (0 : Rat) < ((gate.trial + 1 - gate.lastOpening : Nat) : Rat) :=
    Nat.cast_pos.2 (Nat.pos_of_ne_zero some_elapsed)
  have average : (gate.add optimal agent).averageRegret =
      (gate.optimalSum + optimal - (gate.agentSum + agent)) /
        ((gate.trial + 1 - gate.lastOpening : Nat) : Rat) := by
    rw [averageRegret, elapsed, if_neg some_elapsed]
    rfl
  rw [← le_div_iff₀ counted, ← average, ← elapsed]
  unfold observe
  simp only
  split
  next early =>
    exact iff_of_false Bool.false_ne_true fun due => absurd due.1 (Nat.not_le.2 early)
  next late =>
    split
    next low => exact iff_of_false Bool.false_ne_true fun due => absurd due.2 (not_le.2 low)
    next high => exact iff_of_true rfl ⟨Nat.not_lt.1 late, not_lt.1 high⟩

theorem regret_concat (le : i ≤ past.length) : regret (past ++ [trial]) t i = regret past t i := by
  rw [regret, List.take_append_of_le_length le, regret]

theorem regret_last (le : t ≤ past.length) :
    regret (past ++ [trial]) t (past.length + 1) =
      regret past t past.length + (trial.1 - trial.2) := by
  rw [regret, regret, List.take_of_length_le (by simp), List.take_length, List.drop_append_of_le_length le,
    List.map_append, List.sum_append]
  simp

/-- What a gate has counted and added up in some trials. -/
structure Tracks (config : DisclosureConfig Rat) (past : List (Rat × Rat)) (gate : Gate Rat) : Prop where
  settings : gate.config = config
  counted : gate.trial = past.length
  last : (0 :: (start config).openings past).getLast? = some gate.lastOpening
  before : gate.lastOpening ≤ past.length
  sums : gate.optimalSum - gate.agentSum = regret past gate.lastOpening past.length

theorem tracks_start : Tracks config [] (start config) := ⟨rfl, rfl, rfl, Nat.le_refl 0, sub_self 0⟩

/-- A gate opens at a trial exactly when it is due there. -/
theorem Tracks.opens_iff (tracks : Tracks config past gate) :
    (gate.observe trial.1 trial.2).1 = true ↔
      Due config (past ++ [trial]) gate.lastOpening (past.length + 1) := by
  rw [observe_fst (tracks.counted ▸ tracks.before), tracks.settings, tracks.counted, Due,
    regret_last tracks.before, ← tracks.sums, sub_add_sub_comm]

theorem Tracks.observe (tracks : Tracks config past gate) (reached : gate = (start config).after past) :
    Tracks config (past ++ [trial]) (gate.observe trial.1 trial.2).2 := by
  have listed := openings_concat (start config) past trial
  rw [← reached] at listed
  have length : (past ++ [trial]).length = past.length + 1 := List.length_append
  rw [observe_snd]
  split
  next opens =>
    rw [if_pos opens] at listed
    refine ⟨tracks.settings, ?_, ?_, ?_, ?_⟩
    · rw [length, ← tracks.counted]
      rfl
    · rw [listed, ← List.cons_append, List.getLast?_concat, ← tracks.counted]
    · rw [length, ← tracks.counted]
    · rw [length, ← tracks.counted, regret, List.drop_take_self]
      exact sub_self 0
  next closed =>
    rw [if_neg closed, List.append_nil] at listed
    refine ⟨tracks.settings, ?_, ?_, ?_, ?_⟩
    · rw [length, ← tracks.counted]
      rfl
    · rw [listed]
      exact tracks.last
    · rw [length]
      exact Nat.le_succ_of_le tracks.before
    · rw [length]
      refine Eq.trans ?_ (regret_last tracks.before).symm
      rw [← tracks.sums]
      exact add_sub_add_comm ..

/-- After any trials a gate has counted and added up what came since its last opening. -/
theorem tracks_after (config : DisclosureConfig Rat) (past : List (Rat × Rat)) :
    Tracks config past ((start config).after past) := by
  induction past using List.reverseRecOn with
  | nil => exact tracks_start
  | append_singleton past trial ih =>
    rw [after_concat]
    exact ih.observe rfl

/-! ## Turns -/

/-- Trial zero, as if a gate had opened there, and the openings in some trials. -/
def turns (config : DisclosureConfig Rat) (trials : List (Rat × Rat)) : List Nat :=
  0 :: (start config).openings trials

/-- With one more trial, only this one can become ripe. -/
theorem mem_ripe_concat : i ∈ ripe config (past ++ [trial]) t ↔
    i ∈ ripe config past t ∨ i = past.length + 1 ∧ t < i ∧ Due config (past ++ [trial]) t i := by
  have length : (past ++ [trial]).length = past.length + 1 := List.length_append
  constructor
  · rintro ⟨later, le, due⟩
    rcases Nat.lt_or_ge past.length i with last | within
    · exact .inr ⟨by omega, later, due⟩
    · exact .inl ⟨later, within, due.1, regret_concat within ▸ due.2⟩
  · rintro (⟨later, le, due⟩ | ⟨rfl, later, due⟩)
    · exact ⟨later, by omega, due.1, (regret_concat le).symm ▸ due.2⟩
    · exact ⟨later, by omega, due⟩

theorem isLeast_ripe_concat (least : IsLeast (ripe config past t) i) :
    IsLeast (ripe config (past ++ [trial]) t) i := by
  refine ⟨mem_ripe_concat.2 (.inl least.1), fun j hj => ?_⟩
  rcases mem_ripe_concat.1 hj with before | ⟨rfl, -⟩
  · exact least.2 before
  · have := least.1.2.1
    omega

theorem exists_isLeast {s : Set Nat} (h : s.Nonempty) : ∃ i, IsLeast s i :=
  ⟨sInf s, Nat.sInf_mem h, fun _ hi => Nat.sInf_le hi⟩

theorem turns_concat : turns config (past ++ [trial]) = turns config past ++
    if (((start config).after past).observe trial.1 trial.2).1 then [past.length + 1] else [] := by
  rw [turns, openings_concat, ← List.cons_append, turns]

/-- Where none was ripe before, one more trial is the first one if it is due. -/
theorem isLeast_ripe_last (none_ripe : ∀ j, j ∉ ripe config past t) (earlier : t ≤ past.length) :
    IsLeast (ripe config (past ++ [trial]) t) i ↔
      past.length + 1 = i ∧ Due config (past ++ [trial]) t (past.length + 1) := by
  constructor
  · intro least
    rcases mem_ripe_concat.1 least.1 with before | ⟨rfl, -, due⟩
    · exact absurd before (none_ripe i)
    · exact ⟨rfl, due⟩
  · rintro ⟨rfl, due⟩
    refine ⟨mem_ripe_concat.2 (.inr ⟨rfl, Nat.lt_succ_of_le earlier, due⟩), fun j hj => ?_⟩
    rcases mem_ripe_concat.1 hj with before | ⟨rfl, -⟩
    · exact absurd before (none_ripe j)
    · exact Nat.le_refl _

/-- After each opening the next one is at the first trial that is ripe, if there is any. -/
theorem next_turn_iff (config : DisclosureConfig Rat) (trials : List (Rat × Rat)) {k : Nat}
    (turn : (turns config trials)[k]? = some t) :
    (turns config trials)[k + 1]? = some i ↔ IsLeast (ripe config trials t) i := by
  induction trials using List.reverseRecOn generalizing k t i with
  | nil =>
    refine iff_of_false (by simp [turns, openings, answers]) fun least => ?_
    exact absurd (Nat.lt_of_lt_of_le least.1.1 least.1.2.1) (Nat.not_lt_zero t)
  | append_singleton past trial ih =>
    have tracks := tracks_after config past
    rw [turns_concat] at turn ⊢
    rcases Nat.lt_trichotomy (k + 1) (turns config past).length with inner | final | beyond
    · -- an opening before the last one keeps its successor
      rw [List.getElem?_append_left (by omega)] at turn
      rw [List.getElem?_append_left inner, List.getElem?_eq_getElem inner]
      have least : IsLeast (ripe config (past ++ [trial]) t) _ :=
        isLeast_ripe_concat ((ih turn).1 (List.getElem?_eq_getElem inner))
      exact ⟨fun same => Option.some.inj same ▸ least, fun other => congrArg some (least.unique other)⟩
    · -- after the last opening none was ripe so far, so the new trial is the next one or none is
      rw [List.getElem?_append_left (by omega)] at turn
      have none_ripe : ∀ j, j ∉ ripe config past t := fun j hj => by
        obtain ⟨least, is_least⟩ := exists_isLeast ⟨j, hj⟩
        have := (ih turn).2 is_least
        rw [List.getElem?_eq_none (by omega)] at this
        cases this
      have last : ((start config).after past).lastOpening = t := by
        have := tracks.last
        rw [List.getLast?_eq_getElem?, ← turns, ← final, Nat.add_sub_cancel, turn] at this
        exact (Option.some.inj this).symm
      rw [List.getElem?_append_right (by omega), final, Nat.sub_self,
        isLeast_ripe_last none_ripe (last ▸ tracks.before), ← last, ← tracks.opens_iff]
      split
      next opens => simp [opens]
      next closed => simp [closed]
    · -- only the new trial can stand there, and none comes after it
      rw [List.getElem?_append_right (by omega)] at turn ⊢
      split at turn
      next opens =>
        rw [List.getElem?_singleton] at turn
        split at turn
        next at_end =>
          cases turn
          rw [if_pos opens, List.getElem?_eq_none (by rw [List.length_singleton]; omega)]
          refine iff_of_false nofun fun least => ?_
          have within := least.1.2.1
          rw [List.length_append, List.length_singleton] at within
          exact absurd (Nat.lt_of_lt_of_le least.1.1 within) (Nat.lt_irrefl _)
        next => cases turn
      next => cases turn

/-- Openings are an interval apart, and so is the first one from the start. -/
theorem turns_apart (config : DisclosureConfig Rat) (trials : List (Rat × Rat)) :
    (turns config trials).Pairwise fun s t => s + config.interval ≤ t := by
  have : Trans (fun s t => s + config.interval ≤ t) (fun s t => s + config.interval ≤ t)
      (fun s t => s + config.interval ≤ t) := ⟨fun {a b c} h h' => by omega⟩
  refine List.isChain_iff_pairwise.1 (List.isChain_iff_getElem.2 fun k hk => ?_)
  obtain ⟨later, -, passed, -⟩ := ((next_turn_iff config trials (List.getElem?_eq_getElem (by omega))).1
    (List.getElem?_eq_getElem hk)).1
  omega

theorem turn_le {k : Nat} (turn : (turns config trials)[k]? = some t) :
    k * config.interval ≤ t ∧ t ≤ trials.length := by
  induction k generalizing t with
  | zero =>
    cases turn
    simp
  | succ k ih =>
    obtain ⟨lt, -⟩ := List.getElem?_eq_some_iff.1 turn
    have before := List.getElem?_eq_getElem (Nat.lt_of_succ_lt lt)
    obtain ⟨later, within, passed, -⟩ := ((next_turn_iff config trials before).1 turn).1
    have := (ih before).1
    rw [Nat.succ_mul]
    exact ⟨by omega, within⟩

/-- After an opening, and from the start, the next opening is at the first trial by which the interval has
passed and the regret since then has come to the tolerance for each trial. So openings are an interval
apart, and there is at most one for every interval in the number of trials. -/
theorem next_opening (positive : 1 ≤ config.interval) (trials : List (Rat × Rat)) :
    (∀ k t i, (turns config trials)[k]? = some t →
      ((turns config trials)[k + 1]? = some i ↔ IsLeast (ripe config trials t) i)) ∧
    (turns config trials).Pairwise (fun s t => s + config.interval ≤ t) ∧
    ((start config).openings trials).length ≤ trials.length / config.interval := by
  refine ⟨fun k t i => next_turn_iff config trials, turns_apart config trials, ?_⟩
  obtain ⟨least, within⟩ := turn_le (List.getElem?_eq_getElem
    (show ((start config).openings trials).length < (turns config trials).length from Nat.lt_succ_self _))
  exact (Nat.le_div_iff_mul_le positive).2 (least.trans within)

/-- Every second trial at most, when half a point was lost on average. -/
def patient : DisclosureConfig Rat := ⟨2, 1/2⟩

/-- What is lost trial by trial: nothing, little, a lot, and so once more. -/
def slips : List (Rat × Rat) := [(1, 1), (1, 4/5), (1, -1), (1, 1), (1, 1/2), (1, -1)]

theorem next_opening_of_slips : 1 ≤ patient.interval ∧ (start patient).openings slips = [3, 6] ∧
    IsLeast (ripe patient slips 0) 3 ∧ IsLeast (ripe patient slips 3) 6 ∧ 2 ≤ slips.length / 2 := by
  have opened : (start patient).openings slips = [3, 6] := by decide +kernel
  obtain ⟨next, -, few⟩ := next_opening (show 1 ≤ patient.interval by decide) slips
  rw [turns, opened] at next
  rw [opened] at few
  exact ⟨by decide, opened, (next 0 0 3 rfl).1 rfl, (next 1 3 6 rfl).1 rfl, few⟩

end Gate

end Counsel
