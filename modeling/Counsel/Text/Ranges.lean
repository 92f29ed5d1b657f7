/-
Sets of code points as closed ranges, ascending and apart. A search stops at the first range that
starts behind the code point, which loses nothing if the ranges ascend.
-/
namespace Counsel.Text

/-- Closed ranges of code points. -/
abbrev Ranges := List (Nat × Nat)

namespace Ranges

/-- The first range starts at `least` or later, and each further one behind its predecessor, with a
gap between the two. -/
def AscendingFrom (least : Nat) : Ranges → Prop
  | [] => True
  | (low, high) :: rest => least ≤ low ∧ low ≤ high ∧ AscendingFrom (high + 2) rest

instance ascendingFromDecidable :
    (least : Nat) → (ranges : Ranges) → Decidable (AscendingFrom least ranges)
  | _, [] => .isTrue trivial
  | least, (low, high) :: rest =>
    have := ascendingFromDecidable (high + 2) rest
    inferInstanceAs (Decidable (least ≤ low ∧ low ≤ high ∧ AscendingFrom (high + 2) rest))

/-- Whether a code point lies in one of the ranges. -/
def covers (n : Nat) : Ranges → Bool
  | [] => false
  | (low, high) :: rest => low ≤ n && (n ≤ high || covers n rest)

theorem le_of_mem {least : Nat} {ranges : Ranges} (h : AscendingFrom least ranges)
    {r : Nat × Nat} (hr : r ∈ ranges) : least ≤ r.1 := by
  induction ranges generalizing least with
  | nil => cases hr
  | cons s rest ih =>
    obtain ⟨first, wide, later⟩ := h
    rcases List.mem_cons.1 hr with rfl | hr
    · exact first
    · have := ih later hr
      omega

/-- The search finds a range whenever there is one. -/
theorem covers_iff {least : Nat} {ranges : Ranges} (h : AscendingFrom least ranges) (n : Nat) :
    covers n ranges ↔ ∃ r ∈ ranges, r.1 ≤ n ∧ n ≤ r.2 := by
  induction ranges generalizing least with
  | nil => simp [covers]
  | cons s rest ih =>
    obtain ⟨_, wide, later⟩ := h
    simp only [covers, Bool.and_eq_true, Bool.or_eq_true, decide_eq_true_eq, ih later,
      List.mem_cons, exists_eq_or_imp]
    constructor
    · rintro ⟨low, high | found⟩
      · exact .inl ⟨low, high⟩
      · exact .inr found
    · rintro (⟨low, high⟩ | ⟨r, hr, low, high⟩)
      · exact ⟨low, .inl high⟩
      · have := le_of_mem later hr
        exact ⟨by omega, .inr ⟨r, hr, low, high⟩⟩

end Ranges

end Counsel.Text
