/-
Shares of one among numbers that are rounded. The rest of a share, a part of it and a product of two are
shares, and what is nothing stays nothing (`Share.rest`, `Share.part`, `Share.mul`). If one weight alone is
something it is the total, so that normalised it is one (`exists_normalize_single`), and the first largest of
all (`argmaxFirst_of_indicator`); if none is, there is nothing to normalise (`normalize_of_nothing`).
-/
import Counsel.Proofs.Laws

namespace Counsel.Scalar

open LawfulRounding

variable {α : Type} [Scalar α] [LawfulRounding α] {x y : α} {a b : ℚ}

theorem lt_iff (hx : Stands x a) (hy : Stands y b) : x < y ↔ a < b := by
  rw [LawfulOrder.lt_iff, le_iff hx hy, le_iff hy hx, lt_iff_le_not_ge]

/-! ## Shares -/

/-- A number that stands for a share of one. -/
structure Share (x : α) (a : ℚ) : Prop where
  stands : Stands x a
  nonneg : 0 ≤ a
  le_one : a ≤ 1

theorem share_one : Share (1 : α) 1 := ⟨one, zero_le_one, le_rfl⟩

theorem abs_le_two {q : ℚ} (nonneg : 0 ≤ q) (le_one : q ≤ 1) : |q| ≤ 2 :=
  (abs_of_nonneg nonneg).trans_le (le_one.trans one_le_two)

theorem share_zero (hx : Stands x 0) : Share x 0 := ⟨hx, le_rfl, zero_le_one⟩

theorem exists_share (nonneg : 0 ≤ x) (le_one : x ≤ 1) : ∃ a, Share x a := by
  obtain ⟨a, hx⟩ := between zero one nonneg le_one
  exact ⟨a, hx, (le_iff zero hx).1 nonneg, (le_iff hx one).1 le_one⟩

/-- Rounding keeps shares, and loses nothing if there is nothing. -/
theorem Share.of_nearest {q : ℚ} (h : ∃ c, Stands x c ∧ Nearest (α := α) Stands q c) (nonneg : 0 ≤ q)
    (le_one : q ≤ 1) : ∃ c, Share x c ∧ (q = 0 → c = 0) := by
  obtain ⟨c, hx, nearest⟩ := h
  refine ⟨c, ⟨hx, (nearest 0 0 zero).1 nonneg, (nearest 1 1 one).2 le_one⟩, ?_⟩
  rintro rfl
  exact nearest.eq zero

theorem Share.mul (hx : Share x a) (hy : Share y b) :
    ∃ c, Share (x * y) c ∧ (a = 0 ∨ b = 0 → c = 0) := by
  have nonneg := mul_nonneg hx.nonneg hy.nonneg
  have le_one := mul_le_one₀ hx.le_one hy.nonneg hy.le_one
  obtain ⟨c, share, none⟩ := of_nearest (LawfulRounding.mul hx.stands hy.stands
    (abs_le_two nonneg le_one)) nonneg le_one
  exact ⟨c, share, fun h => none (mul_eq_zero.2 h)⟩

theorem Share.rest (hx : Share x a) : ∃ c, Share (1 - x) c ∧ (a = 1 → c = 0) := by
  have nonneg := sub_nonneg.2 hx.le_one
  have le_one := sub_le_self 1 hx.nonneg
  obtain ⟨c, share, none⟩ := of_nearest (sub one hx.stands (abs_le_two nonneg le_one)) nonneg le_one
  exact ⟨c, share, fun h => none (sub_eq_zero.2 h.symm)⟩

theorem Share.part (hx : Share x a) {n : ℕ} (pos : 0 < n) (few : n < MixedRadix.indexLimit) :
    ∃ c, Share (x / ofNat n) c ∧ (a = 0 → c = 0) := by
  obtain ⟨d, hd, nearest⟩ := count (α := α) few
  have large : 1 ≤ d := (nearest 1 1 one).1 (by exact_mod_cast pos)
  have positive : 0 < d := zero_lt_one.trans_le large
  have nonneg := div_nonneg hx.nonneg positive.le
  have le_one := (div_le_one positive).2 (hx.le_one.trans large)
  obtain ⟨c, share, none⟩ := of_nearest (div hx.stands hd positive.ne' (abs_le_two nonneg le_one)) nonneg
    le_one
  exact ⟨c, share, fun h => none (by rw [h, zero_div])⟩

/-! ## Totals -/

theorem Share.add_nothing (hx : Share x a) (hy : Stands y 0) : Share (x + y) a := by
  have small : |a + 0| ≤ 2 := (add_zero a).symm ▸ abs_le_two hx.nonneg hx.le_one
  obtain ⟨c, sum, nearest⟩ := add hx.stands hy small
  rw [add_zero] at nearest
  exact ⟨nearest.eq hx.stands ▸ sum, hx.nonneg, hx.le_one⟩

theorem Share.nothing_add (hx : Share x a) (hy : Stands y 0) : Share (y + x) a := by
  have small : |0 + a| ≤ 2 := (zero_add a).symm ▸ abs_le_two hx.nonneg hx.le_one
  obtain ⟨c, sum, nearest⟩ := add hy hx.stands small
  rw [zero_add] at nearest
  exact ⟨nearest.eq hx.stands ▸ sum, hx.nonneg, hx.le_one⟩

theorem share_foldl_add (hx : Share x a) {rest : List α} (nothing : ∀ y ∈ rest, Stands y 0) :
    Share (rest.foldl (· + ·) x) a := by
  induction rest generalizing x with
  | nil => exact hx
  | cons y rest ih =>
    obtain ⟨here, nothing⟩ := List.forall_mem_cons.1 nothing
    exact ih (hx.add_nothing here) nothing

theorem stands_total_nothing {weights : List α} (nothing : ∀ x ∈ weights, Stands x 0) :
    Stands (total weights) 0 := by
  cases weights with
  | nil => exact zero
  | cons x rest =>
    obtain ⟨here, nothing⟩ := List.forall_mem_cons.1 nothing
    exact (share_foldl_add (share_zero here) nothing).stands

/-- A weight that is the only one is the total. -/
theorem share_total_single (hx : Share x a) {before after : List α} (nothing : ∀ y ∈ before, Stands y 0)
    (nothing' : ∀ y ∈ after, Stands y 0) : Share (total (before ++ x :: after)) a := by
  cases before with
  | nil => exact share_foldl_add hx nothing'
  | cons y before =>
    obtain ⟨here, nothing⟩ := List.forall_mem_cons.1 nothing
    have sum := share_foldl_add (share_zero here) nothing
    rw [List.cons_append, total, List.foldl_append, List.foldl_cons]
    exact share_foldl_add (hx.nothing_add sum.stands) nothing'

/-! ## Normalised weights -/

theorem normalize_of_nothing {weights : List α} (nothing : ∀ x ∈ weights, Stands x 0) :
    normalize weights = none := by
  have mass := stands_total_nothing nothing
  have not_pos : ¬ 0 < total weights := fun pos => lt_irrefl _ ((lt_iff zero mass).1 pos)
  simp [normalize, not_pos]

theorem normalize_of_pos {weights : List α} (mass : Stands (total weights) a) (pos : 0 < a) :
    normalize weights = some (weights.map (· / total weights)) := by
  have positive : 0 < total weights := (lt_iff zero mass).2 pos
  simp [normalize, finite mass, positive]

variable {ι : Type} {items : List ι} {f : ι → α} {item : ι}

/-- A weight that is the only one is normalised to one, and the others stay nothing. -/
theorem exists_normalize_single (nodup : items.Nodup) (mem : item ∈ items) (hx : Share (f item) a)
    (pos : 0 < a) (nothing : ∀ other ∈ items, other ≠ item → Stands (f other) 0) :
    ∃ g : ι → α, normalize (items.map f) = some (items.map g) ∧ Stands (g item) 1 ∧
      ∀ other ∈ items, other ≠ item → Stands (g other) 0 := by
  obtain ⟨before, after, rfl⟩ := List.append_of_mem mem
  obtain ⟨-, nodup', apart⟩ := List.nodup_append.1 nodup
  have before_ne : ∀ other ∈ before, other ≠ item := fun other h => apart other h item List.mem_cons_self
  have after_ne : ∀ other ∈ after, other ≠ item := fun other h same =>
    (List.nodup_cons.1 nodup').1 (same ▸ h)
  have mass : Stands (total ((before ++ item :: after).map f)) a := by
    rw [List.map_append, List.map_cons]
    refine (share_total_single hx (List.forall_mem_map.2 fun other h => ?_)
      (List.forall_mem_map.2 fun other h => ?_)).stands
    · exact nothing other (List.mem_append_left _ h) (before_ne other h)
    · exact nothing other (List.mem_append_right _ (List.mem_cons_of_mem _ h)) (after_ne other h)
  refine ⟨fun other => f other / total ((before ++ item :: after).map f), ?_, ?_, fun other h ne => ?_⟩
  · rw [normalize_of_pos mass pos, List.map_map]
    rfl
  · have whole : a / a = 1 := div_self pos.ne'
    obtain ⟨c, quotient, nearest⟩ := div hx.stands mass pos.ne' (by rw [whole]; norm_num)
    rw [whole] at nearest
    exact nearest.eq one ▸ quotient
  · obtain ⟨c, quotient, nearest⟩ := div (nothing other h ne) mass pos.ne' (by rw [zero_div]; norm_num)
    rw [zero_div] at nearest
    exact nearest.eq zero ▸ quotient

/-- An entry that is one is the first largest of all if the others are nothing. -/
theorem argmaxFirst_of_indicator (nodup : items.Nodup) {i : ℕ} (there : items[i]? = some item)
    (hx : Stands (f item) 1) (nothing : ∀ other ∈ items, other ≠ item → Stands (f other) 0) :
    argmaxFirst (items.map f) = some i := by
  refine argmaxFirst_eq (by rw [List.getElem?_map, there, Option.map_some]) ?_ ?_
  · refine List.forall_mem_map.2 fun other h => ?_
    by_cases same : other = item
    · rw [same, le_iff hx hx]
    · rw [le_iff (nothing other h same) hx]
      exact zero_le_one
  · intro j lt y hy
    rw [List.getElem?_map, Option.mem_def, Option.map_eq_some_iff] at hy
    obtain ⟨other, there', rfl⟩ := hy
    have ne : other ≠ item := by
      rintro rfl
      have := (List.getElem?_inj (List.getElem?_eq_some_iff.1 there').1 nodup).1 (there'.trans there.symm)
      omega
    rw [lt_iff (nothing other (List.mem_of_getElem? there') ne) hx]
    exact zero_lt_one

end Counsel.Scalar
