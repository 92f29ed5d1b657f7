/-
What outcomes make of a belief. One outcome changes the counts, the window and the moving average, each by
its own rule (`Belief.record_eq`), and leaves the settings alone, so a reset gives back the belief before
the first outcome (`Belief.Arises.reset_eq`). A window holds the latest outcomes, so its counts are theirs
and the prior is gone with the first outcome (`Belief.counts_after`).
-/
import Counsel.Proofs.Laws
import Counsel.Trust.Belief

namespace Counsel.Belief

variable {α : Type} [Scalar α]

/-! ## One outcome -/

/-- All that an outcome changes. -/
theorem record_eq (belief : Belief α) (outcome : Bool) :
    belief.record outcome =
      { belief with
        optimal := match belief.window with
          | some (size, seen) => Scalar.ofNat ((slide size seen outcome).count true)
          | none => if outcome then belief.optimal + 1 else belief.optimal
        suboptimal := match belief.window with
          | some (size, seen) => Scalar.ofNat ((slide size seen outcome).count false)
          | none => if outcome then belief.suboptimal else belief.suboptimal + 1
        window := belief.window.map fun (size, seen) => (size, slide size seen outcome)
        recent := match belief.recency with
          | some weight => Scalar.blend belief.recent (if outcome then 1 else 0) weight
          | none => belief.recent
        evaluations := belief.evaluations + 1 } := by
  have misses : ∀ seen : List Bool, seen.length - seen.count true = seen.count false := fun seen => by
    rw [← List.count_true_add_count_false, Nat.add_sub_cancel_left]
  obtain ⟨prior, optimal, suboptimal, window, recency, recent, evaluations⟩ := belief
  rcases window with _ | ⟨size, seen⟩
  · cases recency <;> cases outcome <;> rfl
  · cases recency <;> simp only [record, count, average, misses, Option.map_some]

theorem window_record (belief : Belief α) (outcome : Bool) :
    (belief.record outcome).window =
      belief.window.map fun (size, seen) => (size, slide size seen outcome) := by
  rw [record_eq]

theorem recency_record (belief : Belief α) (outcome : Bool) :
    (belief.record outcome).recency = belief.recency := by
  rw [record_eq]

theorem recent_record (belief : Belief α) (outcome : Bool) :
    (belief.record outcome).recent =
      match belief.recency with
      | some weight => Scalar.blend belief.recent (if outcome then 1 else 0) weight
      | none => belief.recent := by
  rw [record_eq]

/-- The counts in effect are those of some outcomes. -/
structure Counts (belief : Belief α) (outcomes : List Bool) : Prop where
  optimal : belief.optimal = Scalar.ofNat (outcomes.count true)
  suboptimal : belief.suboptimal = Scalar.ofNat (outcomes.count false)

/-- With a window, the counts are those of the outcomes in it. -/
theorem counts_record {belief : Belief α} {size : Nat} {seen : List Bool}
    (h : belief.window = some (size, seen)) (outcome : Bool) :
    (belief.record outcome).Counts (slide size seen outcome) := by
  rw [record_eq, h]
  exact ⟨rfl, rfl⟩

/-- Without a window, each outcome counts for ever. -/
theorem record_of_none {belief : Belief Rat} (h : belief.window = none) (outcome : Bool) :
    (belief.record outcome).optimal = belief.optimal + ([outcome].count true : Nat) ∧
      (belief.record outcome).suboptimal = belief.suboptimal + ([outcome].count false : Nat) := by
  rw [record_eq, h]
  cases outcome
  · exact ⟨(add_zero _).symm, rfl⟩
  · exact ⟨rfl, (add_zero _).symm⟩

/-- The settings of a belief: its prior, how many outcomes count, and the weight of the latest one. -/
def settings (belief : Belief α) : PriorCounts α × Option Nat × Option α :=
  (belief.prior, belief.window.map (·.1), belief.recency)

@[simp] theorem settings_record (belief : Belief α) (outcome : Bool) :
    (belief.record outcome).settings = belief.settings := by
  rw [record_eq, settings, settings, Option.map_map]
  rfl

@[simp] theorem settings_start (prior : PriorCounts α) (slidingWindow : Option Nat)
    (recency : Option α) : (start prior slidingWindow recency).settings =
      (prior, slidingWindow, recency) := by
  rw [settings, start, Option.map_map]
  cases slidingWindow <;> rfl

theorem reset_eq (belief : Belief α) :
    belief.reset = start belief.settings.1 belief.settings.2.1 belief.settings.2.2 := rfl

/-! ## Histories -/

/-- The belief after some outcomes. -/
def after (belief : Belief α) (outcomes : List Bool) : Belief α := outcomes.foldl record belief

theorem after_concat (belief : Belief α) (past : List Bool) (outcome : Bool) :
    belief.after (past ++ [outcome]) = (belief.after past).record outcome := by
  rw [after, List.foldl_append]
  rfl

theorem settings_after (belief : Belief α) (outcomes : List Bool) :
    (belief.after outcomes).settings = belief.settings := by
  induction outcomes using List.reverseRecOn with
  | nil => rfl
  | append_singleton past outcome ih => rw [after_concat, settings_record, ih]

/-- The beliefs that come about from a prior: outcomes are recorded, and now and then all is forgotten. -/
inductive Arises (prior : PriorCounts α) (slidingWindow : Option Nat) (recency : Option α) :
    Belief α → Prop
  | start : Arises prior slidingWindow recency (start prior slidingWindow recency)
  | recorded {belief : Belief α} (outcome : Bool) (arises : Arises prior slidingWindow recency belief) :
      Arises prior slidingWindow recency (belief.record outcome)
  | reset {belief : Belief α} (arises : Arises prior slidingWindow recency belief) :
      Arises prior slidingWindow recency belief.reset

section Arises

variable {prior : PriorCounts α} {slidingWindow : Option Nat} {recency : Option α} {belief : Belief α}

theorem Arises.settings_eq (arises : Arises prior slidingWindow recency belief) :
    belief.settings = (prior, slidingWindow, recency) := by
  induction arises with
  | start => exact settings_start ..
  | recorded outcome _ ih => rw [settings_record, ih]
  | reset _ ih => rw [Belief.reset_eq, ih, settings_start]

/-- A reset gives back the belief before the first outcome. -/
theorem Arises.reset_eq (arises : Arises prior slidingWindow recency belief) :
    belief.reset = Belief.start prior slidingWindow recency := by
  rw [Belief.reset_eq, arises.settings_eq]

end Arises

/-! ## The window -/

/-- One more outcome moves a window over the latest outcomes along. -/
theorem slide_rtake {size : Nat} (pos : 0 < size) (past : List Bool) (outcome : Bool) :
    slide size (past.rtake size) outcome = (past ++ [outcome]).rtake size := by
  obtain ⟨n, rfl⟩ := Nat.exists_eq_succ_of_ne_zero pos.ne'
  rw [List.rtake_concat_succ, slide]
  congr 1
  rw [List.rtake, List.rtake, List.length_drop]
  split
  next full =>
    rw [List.tail_drop]
    congr 1
    omega
  next room =>
    congr 1
    omega

variable (prior : PriorCounts α) (recency : Option α) {size : Nat}

theorem window_after (pos : 0 < size) (outcomes : List Bool) :
    ((start prior (some size) recency).after outcomes).window = some (size, outcomes.rtake size) := by
  induction outcomes using List.reverseRecOn with
  | nil => rw [List.rtake_nil]; rfl
  | append_singleton past outcome ih =>
    rw [after_concat, window_record, ih, ← slide_rtake pos]
    rfl

/-- After the first outcome the counts are those of the latest outcomes. -/
theorem counts_after (pos : 0 < size) {outcomes : List Bool} (some_outcome : outcomes ≠ []) :
    ((start prior (some size) recency).after outcomes).Counts (outcomes.rtake size) := by
  obtain ⟨past, outcome, rfl⟩ := (List.eq_nil_or_concat outcomes).resolve_left some_outcome
  rw [List.concat_eq_append, after_concat, ← slide_rtake pos]
  exact counts_record (window_after prior recency pos past) outcome

/-- The counts of a window that has filled. -/
theorem counts_of_full (pos : 0 < size) {outcomes : List Bool} (full : size ≤ outcomes.length) :
    ((start prior (some size) recency).after outcomes).Counts (outcomes.rtake size) :=
  counts_after prior recency pos (List.ne_nil_of_length_pos (pos.trans_le full))

theorem count_rtake (outcomes : List Bool) (size : Nat) :
    (outcomes.rtake size).count true + (outcomes.rtake size).count false =
      min outcomes.length size := by
  rw [List.count_true_add_count_false, List.rtake, List.length_drop]
  omega

/-! ## Estimates -/

theorem rho_of_none {belief : Belief α} (h : belief.recency = none) :
    belief.rho = Scalar.share belief.optimal belief.suboptimal (priorMean belief.prior) := by
  rw [rho, h]

theorem rho_of_some {belief : Belief α} {weight : α} (h : belief.recency = some weight) :
    belief.rho = Scalar.larger belief.recent 0 := by
  rw [rho, h]

/-- Once the counts are those of some outcomes, the estimate is the share of the good ones. -/
theorem Counts.rho_eq {belief : Belief α} {seen : List Bool} (counts : belief.Counts seen)
    (plain : belief.recency = none)
    (pos : 0 < (Scalar.ofNat (seen.count true) + Scalar.ofNat (seen.count false) : α))
    (finite : Scalar.isFinite (Scalar.ofNat (seen.count true) + Scalar.ofNat (seen.count false) : α) = true) :
    belief.rho = Scalar.ofNat (seen.count true) /
      (Scalar.ofNat (seen.count true) + Scalar.ofNat (seen.count false)) := by
  rw [rho_of_none plain, counts.optimal, counts.suboptimal]
  exact Scalar.share_of_finite pos finite

/-- So many outcomes have a share of good ones, whichever of them are good. -/
def Divisible (α : Type) [Scalar α] (size : Nat) : Prop :=
  ∀ hits misses : Nat, hits + misses = size → 0 < (Scalar.ofNat hits + Scalar.ofNat misses : α) ∧
    Scalar.isFinite (Scalar.ofNat hits + Scalar.ofNat misses : α) = true

theorem divisible_rat (pos : 0 < size) : Divisible Rat size := by
  rintro hits misses rfl
  refine ⟨?_, rfl⟩
  show (0 : Rat) < hits + misses
  exact_mod_cast pos

theorem divisible_float (pos : 0 < size) (fits : size < MixedRadix.indexLimit) : Divisible Float size := by
  rintro hits misses rfl
  have few : hits + misses < 2 ^ 64 := fits
  obtain ⟨c, sum, positive⟩ :=
    Machine.exists_stands_add_ofNat pos ((Nat.le_add_right _ _).trans_lt few) ((Nat.le_add_left _ _).trans_lt few)
  exact ⟨(Machine.stands_zero.lt_iff sum).2 positive, sum.isFinite⟩

/-- A full window that can be divided has no use for the prior. -/
theorem rho_of_full (prior : PriorCounts α) (pos : 0 < size) (divisible : Divisible α size)
    {outcomes : List Bool} (full : size ≤ outcomes.length) :
    ((start prior (some size) none).after outcomes).rho =
      Scalar.ofNat ((outcomes.rtake size).count true) / (Scalar.ofNat ((outcomes.rtake size).count true) +
        Scalar.ofNat ((outcomes.rtake size).count false)) := by
  obtain ⟨positive, finite⟩ := divisible _ _ ((count_rtake outcomes size).trans (Nat.min_eq_right full))
  refine (counts_of_full prior none pos full).rho_eq ?_ positive finite
  exact congrArg (fun settings => settings.2.2) (settings_after (start prior (some size) none) outcomes)

theorem rho_of_latest (pos : 0 < size) (divisible : Divisible α size) (prior other : PriorCounts α)
    {xs ys : List Bool} (full : size ≤ xs.length) (full' : size ≤ ys.length)
    (same : xs.rtake size = ys.rtake size) :
    ((start prior (some size) none).after xs).rho = ((start other (some size) none).after ys).rho := by
  rw [rho_of_full prior pos divisible full, rho_of_full other pos divisible full', same]

/-- With a window, the counts after some outcomes are those of the latest ones, as many as the window
takes, and add up to how many these are, also as machine numbers while there are no more than `2 ^ 53`.
Beliefs from any two priors that have seen the same latest outcomes, enough to fill the window, have the same
counts and, unless the latest outcomes weigh more, the same estimate. A reset gives back the belief before the
first outcome. -/
theorem counts_of_latest {size : Nat} (pos : 0 < size) :
    (∀ (α : Type) [Scalar α] (prior : PriorCounts α) (recency : Option α),
      (∀ outcomes : List Bool, outcomes ≠ [] →
        ((start prior (some size) recency).after outcomes).Counts (outcomes.rtake size)) ∧
      (∀ (other : PriorCounts α) (recency' : Option α) (xs ys : List Bool),
        size ≤ xs.length → size ≤ ys.length → xs.rtake size = ys.rtake size →
        ((start prior (some size) recency).after xs).optimal =
            ((start other (some size) recency').after ys).optimal ∧
          ((start prior (some size) recency).after xs).suboptimal =
            ((start other (some size) recency').after ys).suboptimal) ∧
      ∀ belief, Arises prior (some size) recency belief →
        belief.reset = start prior (some size) recency) ∧
    (∀ outcomes : List Bool, outcomes ≠ [] →
      (∀ (prior : PriorCounts Rat) (recency : Option Rat),
        ((start prior (some size) recency).after outcomes).optimal +
          ((start prior (some size) recency).after outcomes).suboptimal =
            (min outcomes.length size : Nat)) ∧
      ∀ (prior : PriorCounts Float) (recency : Option Float), min outcomes.length size ≤ 2 ^ 53 →
        Machine.Stands (((start prior (some size) recency).after outcomes).optimal +
          ((start prior (some size) recency).after outcomes).suboptimal)
            (min outcomes.length size : Nat)) ∧
    ∀ xs ys : List Bool, size ≤ xs.length → size ≤ ys.length → xs.rtake size = ys.rtake size →
      (∀ prior other : PriorCounts Rat,
        ((start prior (some size) none).after xs).rho =
          ((start other (some size) none).after ys).rho) ∧
      ∀ prior other : PriorCounts Float, size < MixedRadix.indexLimit →
        ((start prior (some size) none).after xs).rho =
          ((start other (some size) none).after ys).rho := by
  refine ⟨fun α _ prior recency => ⟨fun outcomes => counts_after prior recency pos, ?_,
    fun _ arises => arises.reset_eq⟩, fun outcomes some_outcome => ⟨?_, ?_⟩, ?_⟩
  · intro other recency' xs ys full full' same
    have counts := counts_of_full prior recency pos full
    have counts' := counts_of_full other recency' pos full'
    rw [counts.optimal, counts'.optimal, counts.suboptimal, counts'.suboptimal, same]
    exact ⟨rfl, rfl⟩
  · intro prior recency
    have counts := counts_after prior recency pos some_outcome
    rw [counts.optimal, counts.suboptimal, ← count_rtake]
    exact (Nat.cast_add _ _).symm
  · intro prior recency few
    have counts := counts_after prior recency pos some_outcome
    rw [← count_rtake] at few ⊢
    rw [counts.optimal, counts.suboptimal]
    exact Machine.stands_add_ofNat few
  · intro xs ys full full' same
    exact ⟨fun prior other => rho_of_latest pos (divisible_rat pos) prior other full full' same,
      fun prior other fits => rho_of_latest pos (divisible_float pos fits) prior other full full' same⟩

/-- Of two histories that end alike, in beliefs that began apart: two of the latest outcomes count. -/
theorem counts_of_two_latest :
    ((start ⟨3, 1⟩ (some 2) none : Belief Rat).after [true, false, true]).Counts [false, true] ∧
      ((start ⟨3, 1⟩ (some 2) none : Belief Rat).after [true, false, true]).rho =
        ((start ⟨0, 5⟩ (some 2) none : Belief Rat).after [false, false, true]).rho ∧
      ((start ⟨3, 1⟩ (some 2) none : Belief Rat).after [true, false, true]).reset =
        start ⟨3, 1⟩ (some 2) none := by
  obtain ⟨general, -, estimates⟩ := counts_of_latest (show 0 < 2 by decide)
  obtain ⟨counts, -, forgets⟩ := general Rat ⟨3, 1⟩ none
  refine ⟨counts [true, false, true] (by decide),
    (estimates _ _ (by decide) (by decide) (by decide)).1 _ _, forgets _ ?_⟩
  exact .recorded true (.recorded false (.recorded true .start))

end Counsel.Belief
