/-
The estimates of a value learner. An update moves one cell and keeps the frame of the table
(`ActionValues.reset_update`). The estimates of a state are the values of the joint actions in it
(`ActionValues.stateValues_eq`), so a piece of advice is judged optimal exactly when its value is
the greatest of them (`ActionValues.optimal_eq`).
-/
import Counsel.Agent.ActionValues
import Counsel.Proofs.Layout
import Counsel.Proofs.Weights

namespace Counsel

open Outcome

namespace ActionValues

variable {α : Type}

/-! ## The frame of the table -/

/-- The cells of a table are addressed by state and joint action. -/
structure Laid (q : ActionValues α) : Prop where
  joint : q.states.join q.actions = .ok q.values.layout
  visits : q.visits.layout = q.values.layout

/-- A reset keeps the frame of a table. -/
theorem laid_reset {q : ActionValues α} : q.reset.Laid ↔ q.Laid :=
  ⟨fun h => ⟨h.joint, h.visits⟩, fun h => ⟨h.joint, h.visits⟩⟩

theorem cell_eq_ok {q : ActionValues α} {state action : Assignment} {i : Nat} :
    q.cell state action = .ok i ↔ ∃ s a, q.states.indexOf state = .ok s ∧
      q.actions.indexOf action = .ok a ∧ s * q.actions.size + a = i := by
  simp only [cell, bind_eq_ok, pure_eq_ok, Except.ok.injEq]
  constructor
  · rintro ⟨s, hs, a, ha, e⟩
    exact ⟨s, a, hs, ha, e⟩
  · rintro ⟨s, a, hs, ha, e⟩
    exact ⟨s, hs, a, ha, e⟩

/-- The cells of a state are neighbours. -/
theorem block_le {q : ActionValues α} (laid : q.Laid) {s : Nat} (hs : s < q.states.size) :
    s * q.actions.size + q.actions.size ≤ q.values.cells.size := by
  rw [q.values.size_cells, Layout.size_of_join laid.joint, ← Nat.succ_mul]
  exact Nat.mul_le_mul_right _ hs

/-! ## Values -/

theorem value_of_indexOf {q : ActionValues α} {state action : Assignment} {s a : Nat} {content : α}
    (hs : q.states.indexOf state = .ok s) (ha : q.actions.indexOf action = .ok a)
    (held : q.values.cells[s * q.actions.size + a]? = some content) :
    q.value state action = .ok content := by
  rw [value, cell_eq_ok.2 ⟨s, a, hs, ha, rfl⟩, ok_bind, StateTable.at?, held]
  rfl

theorem value_eq_ok {q : ActionValues α} {state action : Assignment} {value : α}
    (h : q.value state action = .ok value) :
    ∃ s a, q.states.indexOf state = .ok s ∧ q.actions.indexOf action = .ok a := by
  obtain ⟨i, hi, -⟩ := bind_eq_ok.1 h
  obtain ⟨s, a, hs, ha, -⟩ := cell_eq_ok.1 hi
  exact ⟨s, a, hs, ha⟩

/-- A value is read at the index of the joint action. -/
theorem value_congr {q : ActionValues α} {state action other : Assignment}
    (h : q.actions.indexOf action = q.actions.indexOf other) :
    q.value state action = q.value state other := by
  rw [value, value, cell, cell, h]

/-- The estimates of a state are the values of the joint actions, in their order. -/
theorem stateValues_eq {q : ActionValues α} (laid : q.Laid) (distinct : q.actions.Distinct)
    {state : Assignment} {s : Nat} (hs : q.states.indexOf state = .ok s) :
    ∃ values, q.stateValues state = .ok values ∧
      List.Forall₂ (fun action value => q.value state action = .ok value) q.actions.assignments
        values := by
  refine ⟨_, by rw [stateValues, hs, ok_bind, pure_eq_ok], ?_⟩
  have block := block_le laid (Layout.indexOf_lt hs)
  have indices := Layout.indexOf_assignments distinct
  rw [List.forall₂_iff_get] at indices ⊢
  refine ⟨?_, fun i hi hv => ?_⟩
  · rw [indices.1, List.length_range, Array.length_toList, Array.size_extract]
    omega
  · have index := indices.2 i hi (indices.1 ▸ hi)
    rw [List.get_eq_getElem, List.get_eq_getElem, List.getElem_range] at index
    refine value_of_indexOf hs index ?_
    simp only [List.get_eq_getElem, Array.getElem_toList, Array.getElem_extract]
    exact Array.getElem?_eq_getElem _

/-- What the learner thinks the joint actions worth in a state. -/
def Worth (q : ActionValues α) (state : Assignment) : Set α :=
  {value | ∃ action ∈ q.actions.assignments, q.value state action = .ok value}

/-- A piece of advice is worth as much as the joint action that it names. -/
theorem value_mem_worth {q : ActionValues α} (distinct : q.actions.Distinct)
    {state advice : Assignment} {value : α} (h : q.value state advice = .ok value) :
    value ∈ q.Worth state := by
  obtain ⟨s, a, hs, ha⟩ := value_eq_ok h
  obtain ⟨named, listed, index⟩ := forall₂_right_mem (Layout.indexOf_assignments distinct)
    (List.mem_range.2 (Layout.indexOf_lt ha))
  exact ⟨named, listed, (value_congr (index.trans ha.symm)).trans h⟩

/-! ## Making and updating -/

variable [Scalar α]

theorem ofConfig_eq_ok {states actions : Layout} {config : LearnerConfig α} {q : ActionValues α} :
    ofConfig states actions config = .ok q ↔ Check.learner config = .ok () ∧
      ∃ joint, states.join actions = .ok joint ∧
        q = ⟨states, actions, .replicate joint config.initialValue, .replicate joint 0,
          config.initialValue, config.learningRate⟩ := by
  unfold ofConfig
  rcases Check.learner config with e | ⟨⟩
  · simp
  · rcases states.join actions with e | joint
    · simp
    · simp [eq_comm]

theorem laid_of_ofConfig {states actions : Layout} {config : LearnerConfig α} {q : ActionValues α}
    (h : ofConfig states actions config = .ok q) : q.Laid := by
  obtain ⟨-, joint, joined, rfl⟩ := ofConfig_eq_ok.1 h
  exact ⟨joined, rfl⟩

theorem reset_of_ofConfig {states actions : Layout} {config : LearnerConfig α} {q : ActionValues α}
    (h : ofConfig states actions config = .ok q) : q.reset = q := by
  obtain ⟨-, joint, -, rfl⟩ := ofConfig_eq_ok.1 h
  rfl

theorem update_eq_ok {q after : ActionValues α} {state action : Assignment} {reward value : α} :
    q.update state action reward = .ok (value, after) ↔ ∃ i, q.cell state action = .ok i ∧
      value = q.improved ((q.values.at? i).getD q.initialValue) reward
        ((q.visits.at? i).getD 0 + 1) ∧
      after = { q with values := q.values.setAt i value
                       visits := q.visits.setAt i ((q.visits.at? i).getD 0 + 1) } := by
  simp only [update, bind_eq_ok, pure_eq_ok, Except.ok.injEq, Prod.mk.injEq]
  constructor
  · rintro ⟨i, hi, rfl, rfl⟩
    exact ⟨i, hi, rfl, rfl⟩
  · rintro ⟨i, hi, rfl, rfl⟩
    exact ⟨i, hi, rfl, rfl⟩

/-- An update keeps the frame of the table. -/
theorem reset_update {q after : ActionValues α} {state action : Assignment} {reward value : α}
    (h : q.update state action reward = .ok (value, after)) : after.reset = q.reset := by
  obtain ⟨i, -, -, rfl⟩ := update_eq_ok.1 h
  rfl

/-! ## Judging -/

/-- Whether the learner thinks no joint action better than a piece of advice in a state. -/
def optimal (q : ActionValues α) (state advice : Assignment) : Except LayoutError Bool := do
  let values ← q.stateValues state
  let value ← q.value state advice
  return (Scalar.largest values).all (· ≤ value)

/-- Advice is judged optimal exactly when its value is the greatest of all joint actions. Values that are
undefined are passed over. -/
theorem optimal_eq [Scalar.LawfulOrder α] {q : ActionValues α} (laid : q.Laid)
    (distinct : q.actions.Distinct) {state advice : Assignment} {verdict : Bool}
    (h : q.optimal state advice = .ok verdict) :
    ∃ value, q.value state advice = .ok value ∧
      (verdict = true ↔ IsGreatest {worth ∈ q.Worth state | Scalar.Defined worth} value) := by
  rw [optimal, bind_eq_ok] at h
  obtain ⟨values, listed, h⟩ := h
  obtain ⟨value, hv, h⟩ := bind_eq_ok.1 h
  cases h
  obtain ⟨s, -, hs, -⟩ := value_eq_ok hv
  obtain ⟨values', listed', worth⟩ := stateValues_eq laid distinct hs
  cases listed.symm.trans listed'
  have mem_worth : ∀ {x}, x ∈ q.Worth state ↔ x ∈ values := by
    intro x
    constructor
    · rintro ⟨action, ha, hx⟩
      obtain ⟨x', mem, h'⟩ := forall₂_mem worth ha
      cases hx.symm.trans h'
      exact mem
    · intro mem
      obtain ⟨action, ha, hx⟩ := forall₂_right_mem worth mem
      exact ⟨action, ha, hx⟩
  have here : value ∈ values := mem_worth.1 (value_mem_worth distinct hv)
  refine ⟨value, hv, Scalar.largest_all_le_iff.trans ⟨?_, ?_⟩⟩
  · rintro (rfl | ⟨⟨x, mem, defined⟩, upper⟩)
    · cases here
    · -- the value is compared with one that is defined, so it is defined
      have defined' := (Scalar.LawfulOrder.defined_of_le (upper x mem defined)).2
      exact ⟨⟨mem_worth.2 here, defined'⟩, fun y ⟨hy, hd⟩ => upper y (mem_worth.1 hy) hd⟩
  · rintro ⟨⟨-, defined⟩, upper⟩
    exact .inr ⟨⟨value, here, defined⟩, fun y hy hd => upper ⟨mem_worth.2 hy, hd⟩⟩

end ActionValues

end Counsel
