/-
Noisy advice as a function of what is drawn (`noisyAdvice_cases`). A draw below the reliability gives the
optimal action, and only such a draw does. Any other gives the action of a pick, whose place skips that of
the optimal one; in a layout without repeated values each other action has one pick (`Layout.bijOn_other`).
-/
import Counsel.Expert.Basic
import Counsel.Proofs.Listing

namespace Counsel

open Outcome

/-! ## Skipped numbers -/

/-- The numbers other than `best`, in order. -/
def skip (best pick : Nat) : Nat := if best ≤ pick then pick + 1 else pick

theorem skip_ne (best pick : Nat) : skip best pick ≠ best := by
  unfold skip
  split <;> omega

theorem skip_lt {best pick size : Nat} (h : pick < size - 1) : skip best pick < size := by
  unfold skip
  split <;> omega

/-- Each other number is skipped to once. -/
theorem bijOn_skip {best size : Nat} (h : best < size) :
    Set.BijOn (skip best) (Set.Iio (size - 1)) (Set.Iio size \ {best}) := by
  refine ⟨fun pick lt => ⟨skip_lt lt, skip_ne best pick⟩, fun pick _ other _ same => ?_, ?_⟩
  · unfold skip at same
    split at same <;> split at same <;> omega
  · rintro i ⟨lt, ne⟩
    rw [Set.mem_Iio] at lt
    rw [Set.mem_singleton_iff] at ne
    -- numbers below the one that is skipped stay, those above come from the one before
    rcases Nat.lt_or_gt_of_ne ne with before | behind
    · exact ⟨i, Set.mem_Iio.2 (by omega), if_neg (by omega)⟩
    · exact ⟨i - 1, Set.mem_Iio.2 (by omega), (if_pos (by omega)).trans (by omega)⟩

namespace Layout

variable {layout : Layout} {optimal : Assignment} {best : Nat}

/-- The assignment of a pick among those that do not have an index. -/
def other (layout : Layout) (best pick : Nat) : Assignment := NameMap.ofList (layout.entriesAt (skip best pick))

theorem assignmentAt_skip {pick : Nat} (h : pick < layout.size - 1) :
    layout.assignmentAt (skip best pick) = .ok (layout.other best pick) := assignmentAt_of_lt (skip_lt h)

/-- Each assignment of a layout but one has one pick. -/
theorem bijOn_other (distinct : layout.Distinct) (mem : optimal ∈ layout.assignments)
    (found : layout.indexOf optimal = .ok best) :
    Set.BijOn (layout.other best) (Set.Iio (layout.size - 1)) ({a | a ∈ layout.assignments} \ {optimal}) := by
  have lt := indexOf_lt found
  have there : NameMap.ofList (layout.entriesAt best) = optimal :=
    (covers_of_mem_assignments (mem_assignments_of_eq (assignmentAt_of_lt lt))).eq_of_indexOf
      (covers_of_mem_assignments mem) (indexOf_assignmentAt distinct lt) found
  have others := (bijOn_entriesAt distinct).sdiff_singleton (Set.mem_Iio.2 lt)
  rw [there] at others
  exact others.comp (bijOn_skip lt)

/-- No pick gives the assignment that is skipped. -/
theorem other_ne (distinct : layout.Distinct) (found : layout.indexOf optimal = .ok best) {pick : Nat}
    (h : pick < layout.size - 1) : layout.other best pick ≠ optimal := by
  intro same
  have lt : skip best pick < layout.size := skip_lt h
  have read := indexOf_assignmentAt distinct lt
  rw [← other, same, found, Except.ok.injEq] at read
  exact skip_ne best pick read.symm

end Layout

/-! ## Advice that is drawn -/

variable {α γ : Type} [Scalar α] [RandomSource γ] {actions : Layout} {optimal advice : Assignment}

/-- All that can come of what is drawn. -/
theorem noisyAdvice_cases (source : γ) (actions : Layout) (optimal : Assignment) (reliability : α) :
    let (u, rest) := (RandomSource.fraction source : α × γ)
    let (pick, last) := RandomSource.below (actions.size - 1) rest
    (u < reliability ∨ actions.size < 2) ∧
        noisyAdvice source actions optimal reliability = (.ok optimal, rest) ∨
      ¬ u < reliability ∧ 2 ≤ actions.size ∧
        ((∃ e, actions.indexOf optimal = .error e ∧
            noisyAdvice source actions optimal reliability = (.error e, rest)) ∨
          ∃ best, actions.indexOf optimal = .ok best ∧ pick < actions.size - 1 ∧
            noisyAdvice source actions optimal reliability = (.ok (actions.other best pick), last)) := by
  simp only
  unfold noisyAdvice
  simp only
  split
  next below => exact .inl ⟨.inl below, rfl⟩
  next above =>
    split
    next few => exact .inl ⟨.inr few, rfl⟩
    next several =>
      refine .inr ⟨above, Nat.le_of_not_lt several, ?_⟩
      rcases actions.indexOf optimal with e | best
      · exact .inl ⟨e, rfl, rfl⟩
      · have lt := RandomSource.below_lt (actions.size - 1) (RandomSource.fraction source : α × γ).2
          (by omega)
        exact .inr ⟨best, rfl, lt, congrArg (·, _) (Layout.assignmentAt_skip lt)⟩

/-- A draw below the reliability gives the optimal action; otherwise each pick gives one of the others, and
each of the others has one pick. -/
theorem noisyAdvice_eq_other (distinct : actions.Distinct) (two : 2 ≤ actions.size)
    (mem : optimal ∈ actions.assignments) : ∃ other : Nat → Assignment,
      Set.BijOn other (Set.Iio (actions.size - 1)) ({a | a ∈ actions.assignments} \ {optimal}) ∧
      ∀ {α γ : Type} [Scalar α] [RandomSource γ] (source : γ) (reliability : α),
        let (u, rest) := (RandomSource.fraction source : α × γ)
        let (pick, last) := RandomSource.below (actions.size - 1) rest
        pick < actions.size - 1 ∧
          noisyAdvice source actions optimal reliability =
            (if u < reliability then (.ok optimal, rest) else (.ok (other pick), last)) ∧
          ((noisyAdvice source actions optimal reliability).1 = .ok optimal ↔ u < reliability) := by
  obtain ⟨best, found⟩ := Layout.reads_of_mem_assignments mem
  have others := Layout.bijOn_other distinct mem found
  refine ⟨actions.other best, others, fun {α γ} _ _ source reliability => ?_⟩
  have lt := RandomSource.below_lt (actions.size - 1) (RandomSource.fraction source : α × γ).2 (by omega)
  refine ⟨lt, ?_⟩
  rcases noisyAdvice_cases source actions optimal reliability with
    ⟨below | few, told⟩ | ⟨above, -, ⟨e, unread, -⟩ | ⟨index, read, -, told⟩⟩
  · rw [told, if_pos below]
    exact ⟨rfl, iff_of_true rfl below⟩
  · exact absurd two few.not_ge
  · cases found.symm.trans unread
  · cases found.symm.trans read
    rw [told, if_neg above]
    exact ⟨rfl, iff_of_false (fun same => (others.mapsTo lt).2 (Except.ok.inj same)) above⟩

end Counsel
