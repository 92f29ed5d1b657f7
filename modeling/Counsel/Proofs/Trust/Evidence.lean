/-
Beliefs follow the evidence. Of two beliefs that began alike, the one whose outcomes were nowhere better is
never ahead (`Belief.Behind.after`): each outcome keeps the order of the counts, of the windows and of the
averages. A single good outcome speaks for an expert and a bad one against it
(`Belief.Sound.noBetter_good`, `Belief.Sound.bad_noBetter`), also when it is the first one in a window and
takes the place of the prior.
-/
import Counsel.Proofs.Trust.Belief

namespace Counsel.Belief

/-! ## Outcomes in a window -/

theorem count_le_count {xs ys : List Bool} (worse : List.Forall₂ (· ≤ ·) xs ys) :
    xs.count true ≤ ys.count true ∧ ys.count false ≤ xs.count false := by
  induction worse with
  | nil => exact ⟨Nat.le_refl _, Nat.le_refl _⟩
  | @cons x y _ _ le _ ih =>
    rw [List.count_cons, List.count_cons, List.count_cons, List.count_cons]
    have more : (if x == true then 1 else 0) ≤ if y == true then 1 else 0 := by
      revert x y
      decide
    have fewer : (if y == false then 1 else 0) ≤ if x == false then 1 else 0 := by
      revert x y
      decide
    exact ⟨Nat.add_le_add ih.1 more, Nat.add_le_add ih.2 fewer⟩

theorem slide_forall₂ {xs ys : List Bool} (worse : List.Forall₂ (· ≤ ·) xs ys) {x y : Bool}
    (le : x ≤ y) (size : Nat) : List.Forall₂ (· ≤ ·) (slide size xs x) (slide size ys y) := by
  have last : List.Forall₂ (· ≤ ·) [x] [y] := .cons le .nil
  rw [slide, slide, worse.length_eq]
  split
  · cases worse with
    | nil => exact last
    | cons _ rest => exact List.rel_append rest last
  · exact List.rel_append worse last

theorem slide_nil (size : Nat) (outcome : Bool) : slide size [] outcome = [outcome] := by
  rw [slide]
  split <;> rfl

/-- An outcome that comes into a window pushes out at most one of its kind. -/
theorem count_le_slide (size : Nat) (seen : List Bool) (outcome : Bool) :
    seen.count outcome ≤ (slide size seen outcome).count outcome := by
  rw [slide, List.count_append, List.count_singleton_self]
  split
  · have := List.le_count_tail (a := outcome) (l := seen)
    omega
  · omega

theorem slide_count_le (size : Nat) (seen : List Bool) {outcome other : Bool} (ne : outcome ≠ other) :
    (slide size seen outcome).count other ≤ seen.count other := by
  rw [slide, List.count_append, List.count_singleton, beq_false_of_ne ne]
  split
  · exact List.Sublist.count_le _ (List.tail_sublist seen)
  · exact Nat.le_refl _

/-! ## Sound beliefs -/

/-- Settings that make sense: counts that are not negative, one of them positive, and a weight from zero
to one, but not zero. -/
structure Proper (prior : PriorCounts Rat) (recency : Option Rat) : Prop where
  optimal : 0 ≤ prior.optimal
  suboptimal : 0 ≤ prior.suboptimal
  some_count : 0 < prior.optimal + prior.suboptimal
  weight : ∀ weight ∈ recency, 0 < weight ∧ weight ≤ 1

/-- The counts in effect make up a whole, those of a window if anything is in it, and the average is a
probability. -/
structure Sound (belief : Belief Rat) : Prop where
  optimal : 0 ≤ belief.optimal
  suboptimal : 0 ≤ belief.suboptimal
  whole : 0 < belief.optimal + belief.suboptimal
  recent_nonneg : 0 ≤ belief.recent
  recent_le_one : belief.recent ≤ 1
  weight : ∀ weight ∈ belief.recency, 0 < weight ∧ weight ≤ 1
  window : ∀ size seen, belief.window = some (size, seen) → seen ≠ [] → belief.Counts seen

section Sound

variable {prior : PriorCounts Rat} {slidingWindow : Option Nat} {recency : Option Rat}
  {belief : Belief Rat}

theorem sound_start (proper : Proper prior recency) :
    (start prior slidingWindow recency).Sound where
  optimal := proper.optimal
  suboptimal := proper.suboptimal
  whole := proper.some_count
  recent_nonneg := Scalar.share_nonneg proper.optimal proper.some_count
  recent_le_one := Scalar.share_le_one proper.suboptimal proper.some_count
  weight := proper.weight
  window size seen h some_seen := by
    obtain ⟨_, -, e⟩ := Option.map_eq_some_iff.1 h
    cases e
    exact absurd rfl some_seen

/-- The counts of outcomes of which there is one make up a whole. -/
theorem Counts.whole {seen : List Bool} (counts : belief.Counts seen) (some_seen : seen ≠ []) :
    0 ≤ belief.optimal ∧ 0 ≤ belief.suboptimal ∧ 0 < belief.optimal + belief.suboptimal := by
  have pos : 0 < seen.count true + seen.count false := by
    rw [List.count_true_add_count_false]
    exact List.length_pos_iff.2 some_seen
  rw [counts.optimal, counts.suboptimal, Scalar.ofNat_eq, Scalar.ofNat_eq]
  exact ⟨Nat.cast_nonneg _, Nat.cast_nonneg _, by exact_mod_cast pos⟩

theorem slide_ne_nil (size : Nat) (seen : List Bool) (outcome : Bool) :
    slide size seen outcome ≠ [] := List.concat_ne_nil _ _

theorem Sound.counted (sound : belief.Sound) (outcome : Bool) :
    0 ≤ (belief.record outcome).optimal ∧ 0 ≤ (belief.record outcome).suboptimal ∧
      0 < (belief.record outcome).optimal + (belief.record outcome).suboptimal := by
  rcases h : belief.window with _ | ⟨size, seen⟩
  · obtain ⟨optimal, suboptimal⟩ := record_of_none h outcome
    rw [optimal, suboptimal, add_add_add_comm]
    exact ⟨add_nonneg sound.optimal (Nat.cast_nonneg _), add_nonneg sound.suboptimal (Nat.cast_nonneg _),
      add_pos_of_pos_of_nonneg sound.whole (add_nonneg (Nat.cast_nonneg _) (Nat.cast_nonneg _))⟩
  · exact (counts_record h outcome).whole (slide_ne_nil size seen outcome)

/-- An average of probabilities is a probability. -/
theorem Sound.averaged (sound : belief.Sound) (outcome : Bool) :
    0 ≤ (belief.record outcome).recent ∧ (belief.record outcome).recent ≤ 1 := by
  rw [recent_record]
  rcases h : belief.recency with _ | weight
  · exact ⟨sound.recent_nonneg, sound.recent_le_one⟩
  · obtain ⟨pos, le⟩ := sound.weight weight h
    have observed : (0 : Rat) ≤ (if outcome then 1 else 0) ∧ (if outcome then 1 else 0) ≤ (1 : Rat) := by
      cases outcome <;> decide
    have low := Scalar.blend_le_blend pos.le le sound.recent_nonneg observed.1
    have high := Scalar.blend_le_blend pos.le le sound.recent_le_one observed.2
    rw [Scalar.blend_self] at low high
    exact ⟨low, high⟩

theorem Sound.record (sound : belief.Sound) (outcome : Bool) : (belief.record outcome).Sound where
  optimal := (sound.counted outcome).1
  suboptimal := (sound.counted outcome).2.1
  whole := (sound.counted outcome).2.2
  recent_nonneg := (sound.averaged outcome).1
  recent_le_one := (sound.averaged outcome).2
  weight := recency_record belief outcome ▸ sound.weight
  window size seen h _ := by
    rw [window_record, Option.map_eq_some_iff] at h
    obtain ⟨⟨_, earlier⟩, held, e⟩ := h
    cases e
    exact counts_record held outcome

theorem Arises.sound (proper : Proper prior recency)
    (arises : Arises prior slidingWindow recency belief) : belief.Sound := by
  induction arises with
  | start => exact sound_start proper
  | recorded outcome _ ih => exact ih.record outcome
  | reset arises _ =>
    rw [arises.reset_eq]
    exact sound_start proper

/-- An estimate is a probability. -/
theorem Sound.rho_mem (sound : belief.Sound) : 0 ≤ belief.rho ∧ belief.rho ≤ 1 := by
  rcases h : belief.recency with _ | weight
  · rw [rho_of_none h]
    exact ⟨Scalar.share_nonneg sound.optimal sound.whole,
      Scalar.share_le_one sound.suboptimal sound.whole⟩
  · rw [rho_of_some h, Scalar.larger_zero sound.recent_nonneg]
    exact ⟨sound.recent_nonneg, sound.recent_le_one⟩

end Sound

/-! ## Better evidence -/

/-- A belief is nowhere ahead of another one with the same weight of the latest outcomes; the counts are
compared crosswise. -/
structure NoBetter (belief other : Belief Rat) : Prop where
  recency : other.recency = belief.recency
  counts : belief.optimal * other.suboptimal ≤ other.optimal * belief.suboptimal
  recent : belief.recent ≤ other.recent

theorem NoBetter.rho_le {belief other : Belief Rat} (sound : belief.Sound) (sound' : other.Sound)
    (worse : belief.NoBetter other) : belief.rho ≤ other.rho := by
  rcases h : belief.recency with _ | weight
  · rw [rho_of_none h, rho_of_none (worse.recency.trans h)]
    exact Scalar.share_le_share sound.whole sound'.whole worse.counts
  · rw [rho_of_some h, rho_of_some (worse.recency.trans h), Scalar.larger_zero sound.recent_nonneg,
      Scalar.larger_zero sound'.recent_nonneg]
    exact worse.recent

/-- Counts that are nowhere ahead are not ahead crosswise either. -/
theorem cross_le_cross {belief other : Belief Rat} (sound : other.Sound)
    (optimal : belief.optimal ≤ other.optimal) (suboptimal : other.suboptimal ≤ belief.suboptimal) :
    belief.optimal * other.suboptimal ≤ other.optimal * belief.suboptimal :=
  mul_le_mul optimal suboptimal sound.suboptimal sound.optimal

section Single

variable {belief : Belief Rat}

/-- A good outcome speaks for the expert, also where it is the first one in a window. -/
theorem Sound.noBetter_good (sound : belief.Sound) : belief.NoBetter (belief.record true) where
  recency := recency_record belief true
  counts := by
    rcases h : belief.window with _ | ⟨size, seen⟩
    · obtain ⟨optimal, suboptimal⟩ := record_of_none h true
      refine cross_le_cross (sound.record true) ?_ (le_of_eq (suboptimal.trans (add_zero _)))
      rw [optimal]
      exact le_add_of_nonneg_right (Nat.cast_nonneg _)
    · have counts := counts_record h true
      by_cases empty : seen = []
      · -- the prior goes, and no bad outcome is left
        have none_bad : (belief.record true).suboptimal = 0 := by
          rw [counts.suboptimal, empty, slide_nil]
          rfl
        rw [none_bad, mul_zero]
        exact mul_nonneg (sound.record true).optimal sound.suboptimal
      · have held := sound.window size seen h empty
        refine cross_le_cross (sound.record true) ?_ ?_
        · rw [held.optimal, counts.optimal]
          exact Nat.cast_le.2 (count_le_slide size seen true)
        · rw [held.suboptimal, counts.suboptimal]
          exact Nat.cast_le.2 (slide_count_le size seen (by decide))
  recent := by
    rw [recent_record]
    rcases h : belief.recency with _ | weight
    · exact le_rfl
    · obtain ⟨pos, le⟩ := sound.weight weight h
      have more := Scalar.blend_le_blend pos.le le (le_refl belief.recent) sound.recent_le_one
      rwa [Scalar.blend_self] at more

/-- A bad outcome speaks against the expert. -/
theorem Sound.bad_noBetter (sound : belief.Sound) : (belief.record false).NoBetter belief where
  recency := (recency_record belief false).symm
  counts := by
    rcases h : belief.window with _ | ⟨size, seen⟩
    · obtain ⟨optimal, suboptimal⟩ := record_of_none h false
      refine cross_le_cross sound (le_of_eq (optimal.trans (add_zero _))) ?_
      rw [suboptimal]
      exact le_add_of_nonneg_right (Nat.cast_nonneg _)
    · have counts := counts_record h false
      by_cases empty : seen = []
      · have none_good : (belief.record false).optimal = 0 := by
          rw [counts.optimal, empty, slide_nil]
          rfl
        rw [none_good, zero_mul]
        exact mul_nonneg sound.optimal (sound.record false).suboptimal
      · have held := sound.window size seen h empty
        refine cross_le_cross sound ?_ ?_
        · rw [held.optimal, counts.optimal]
          exact Nat.cast_le.2 (slide_count_le size seen (by decide))
        · rw [held.suboptimal, counts.suboptimal]
          exact Nat.cast_le.2 (count_le_slide size seen false)
  recent := by
    rw [recent_record]
    rcases h : belief.recency with _ | weight
    · exact le_rfl
    · obtain ⟨pos, le⟩ := sound.weight weight h
      have less := Scalar.blend_le_blend pos.le le (le_refl belief.recent) sound.recent_nonneg
      rwa [Scalar.blend_self] at less

end Single

/-! ## Two histories -/

/-- Two beliefs with the same settings, one of which has seen worse outcomes. -/
structure Behind (belief other : Belief Rat) : Prop where
  recency : other.recency = belief.recency
  optimal : belief.optimal ≤ other.optimal
  suboptimal : other.suboptimal ≤ belief.suboptimal
  recent : belief.recent ≤ other.recent
  window : Option.Rel (fun held held' => held.1 = held'.1 ∧ List.Forall₂ (· ≤ ·) held.2 held'.2)
    belief.window other.window

theorem Behind.refl (belief : Belief Rat) : belief.Behind belief where
  recency := rfl
  optimal := le_rfl
  suboptimal := le_rfl
  recent := le_rfl
  window := by
    rcases belief.window with _ | held
    · exact .none
    · exact .some ⟨rfl, List.forall₂_refl _⟩

section Behind

variable {belief other : Belief Rat}

theorem Behind.noBetter (sound : other.Sound) (behind : belief.Behind other) :
    belief.NoBetter other where
  recency := behind.recency
  counts := cross_le_cross sound behind.optimal behind.suboptimal
  recent := behind.recent

/-- Neither has a window, or both have one of the same size. -/
theorem Behind.windows (behind : belief.Behind other) :
    belief.window = none ∧ other.window = none ∨
      ∃ size seen seen', belief.window = some (size, seen) ∧ other.window = some (size, seen') ∧
        List.Forall₂ (· ≤ ·) seen seen' := by
  have same := behind.window
  rcases h : belief.window with _ | ⟨size, seen⟩ <;>
    rcases h' : other.window with _ | ⟨size', seen'⟩ <;> rw [h, h'] at same
  case none.none => exact .inl ⟨rfl, rfl⟩
  case some.some =>
    obtain ⟨rfl, worse⟩ : size = size' ∧ List.Forall₂ (· ≤ ·) seen seen' := by
      cases same
      assumption
    exact .inr ⟨size, seen, seen', rfl, rfl, worse⟩
  all_goals nomatch same

/-- The counts stay in order. -/
theorem Behind.counted (behind : belief.Behind other) {x y : Bool} (le : x ≤ y) :
    (belief.record x).optimal ≤ (other.record y).optimal ∧
      (other.record y).suboptimal ≤ (belief.record x).suboptimal := by
  obtain ⟨h, h'⟩ | ⟨size, seen, seen', h, h', worse⟩ := behind.windows
  · obtain ⟨optimal, suboptimal⟩ := record_of_none h x
    obtain ⟨optimal', suboptimal'⟩ := record_of_none h' y
    obtain ⟨more, fewer⟩ := count_le_count (.cons le .nil)
    rw [optimal, suboptimal, optimal', suboptimal']
    exact ⟨add_le_add behind.optimal (Nat.cast_le.2 more),
      add_le_add behind.suboptimal (Nat.cast_le.2 fewer)⟩
  · have counts := counts_record h x
    have counts' := counts_record h' y
    obtain ⟨more, fewer⟩ := count_le_count (slide_forall₂ worse le size)
    rw [counts.optimal, counts.suboptimal, counts'.optimal, counts'.suboptimal]
    exact ⟨Nat.cast_le.2 more, Nat.cast_le.2 fewer⟩

/-- And so do the averages. -/
theorem Behind.averaged (sound : belief.Sound) (behind : belief.Behind other) {x y : Bool} (le : x ≤ y) :
    (belief.record x).recent ≤ (other.record y).recent := by
  rw [recent_record, recent_record, behind.recency]
  rcases h : belief.recency with _ | weight
  · exact behind.recent
  · obtain ⟨pos, le_one⟩ := sound.weight weight h
    refine Scalar.blend_le_blend pos.le le_one behind.recent ?_
    revert x y
    decide

theorem Behind.record (sound : belief.Sound) (behind : belief.Behind other) {x y : Bool} (le : x ≤ y) :
    (belief.record x).Behind (other.record y) where
  recency := by rw [recency_record, recency_record, behind.recency]
  optimal := (behind.counted le).1
  suboptimal := (behind.counted le).2
  recent := behind.averaged sound le
  window := by
    rw [window_record, window_record]
    obtain ⟨h, h'⟩ | ⟨size, seen, seen', h, h', worse⟩ := behind.windows
    · rw [h, h']
      exact .none
    · rw [h, h']
      exact .some ⟨rfl, slide_forall₂ worse le size⟩

theorem Sound.after (sound : belief.Sound) (outcomes : List Bool) : (belief.after outcomes).Sound := by
  induction outcomes generalizing belief with
  | nil => exact sound
  | cons outcome _ ih => exact ih (sound.record outcome)

/-- Worse outcomes keep a belief behind. -/
theorem Behind.after (sound : belief.Sound) (behind : belief.Behind other) {xs ys : List Bool}
    (worse : List.Forall₂ (· ≤ ·) xs ys) : (belief.after xs).Behind (other.after ys) := by
  induction worse generalizing belief other with
  | nil => exact behind
  | @cons x _ _ _ le _ ih => exact ih (sound.record x) (behind.record sound le)

end Behind

/-- Estimates follow the evidence: outcomes that were nowhere better never lead to a greater estimate. At
whatever belief has come about, one more good outcome does not lower the estimate and a bad one does not
raise it, and the estimate is a probability. -/
theorem rho_follows_outcomes {prior : PriorCounts Rat} {recency : Option Rat}
    (proper : Proper prior recency) (slidingWindow : Option Nat) :
    (∀ xs ys, List.Forall₂ (· ≤ ·) xs ys →
      ((start prior slidingWindow recency).after xs).rho ≤
        ((start prior slidingWindow recency).after ys).rho) ∧
    ∀ belief, Arises prior slidingWindow recency belief →
      belief.rho ≤ (belief.record true).rho ∧ (belief.record false).rho ≤ belief.rho ∧
        0 ≤ belief.rho ∧ belief.rho ≤ 1 := by
  constructor
  · intro xs ys worse
    have sound : (start prior slidingWindow recency).Sound := sound_start proper
    have behind := (Behind.refl _).after sound worse
    exact (behind.noBetter (sound.after ys)).rho_le (sound.after xs) (sound.after ys)
  · intro belief arises
    have sound := arises.sound proper
    exact ⟨sound.noBetter_good.rho_le sound (sound.record true),
      sound.bad_noBetter.rho_le (sound.record false) sound, sound.rho_mem⟩

/-- A window of two with a moving average, in which one outcome of three is better. -/
theorem rho_follows_three_outcomes :
    ((start ⟨1, 1⟩ (some 2) (some (1 / 4)) : Belief Rat).after [false, false, true]).rho ≤
        ((start ⟨1, 1⟩ (some 2) (some (1 / 4)) : Belief Rat).after [false, true, true]).rho ∧
      ((start ⟨1, 1⟩ (some 2) (some (1 / 4)) : Belief Rat).record true).rho ≤ 1 := by
  have proper : Proper ⟨1, 1⟩ (some (1 / 4)) :=
    { optimal := by decide, suboptimal := by decide, some_count := by norm_num
      weight := by
        rintro _ ⟨⟩
        norm_num }
  obtain ⟨histories, outcomes⟩ := rho_follows_outcomes proper (some 2)
  refine ⟨histories _ _ (.cons (by decide) (.cons (by decide) (.cons (by decide) .nil))), ?_⟩
  exact (outcomes _ (.recorded true .start)).2.2.2

end Counsel.Belief
