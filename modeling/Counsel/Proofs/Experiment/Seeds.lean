/-
Seeds of runs. The seed of a run is the number of the run further on than that of its panel, and the
seeds of neighbouring panels are `seedStride` apart, so two runs have one seed exactly if they are at one
offset up to whole words (`runSeed_eq_iff`). The seeds of an experiment differ exactly if no panel has
more runs than the offsets of two panels leave between them (`seedsDiffer_iff`). What is accepted as the
settings of an experiment bounds the runs from below only (`Check.experiment_runs`).
-/
import Counsel.Proofs.Config.Valid
import Counsel.Experiment
import Counsel.Random.KeyStream

namespace Counsel

variable {α : Type}

namespace ExperimentConfig

variable (config : ExperimentConfig α)

/-- How many rows of runs an experiment has: one against each panel, and the baseline if it is wanted. -/
def rows : Nat := config.panels.length + config.includeBaseline.toNat

/-- No two runs of an experiment have one seed. -/
def SeedsDiffer : Prop :=
  ∀ row run row' run', row < config.rows → run < config.runs → row' < config.rows →
    run' < config.runs → config.runSeed row run = config.runSeed row' run' → row = row' ∧ run = run'

/-- How far the first runs of two neighbouring rows are apart. -/
def seedStride : Nat := 1000003

variable {config}

/-- Two runs have one seed exactly if they are equally far from the seed of the experiment. -/
theorem runSeed_eq_iff {row run row' run' : Nat} :
    config.runSeed row run = config.runSeed row' run' ↔
      row * seedStride + run ≡ row' * seedStride + run' [MOD 2 ^ 64] := by
  unfold runSeed Nat.ModEq seedStride
  have stride : (1000003 : UInt64).toNat = 1000003 := rfl
  rw [← UInt64.toNat_inj]
  simp only [UInt64.toNat_add, UInt64.toNat_mul, UInt64.toNat_ofNat', stride]
  omega

/-- How far the first runs of two rows are apart, as 64-bit words. -/
def gap (rows : Nat) : Nat := rows * seedStride % 2 ^ 64

/-- Runs that are so far apart in one row as another row is from theirs. -/
theorem runSeed_eq_of_gap (config : ExperimentConfig α) (row rows run : Nat) :
    config.runSeed (row + rows) run = config.runSeed row (run + gap rows) := by
  rw [runSeed_eq_iff]
  unfold gap Nat.ModEq seedStride
  omega

theorem SeedsDiffer.runs_le (differ : config.SeedsDiffer) (some_row : 0 < config.rows) :
    config.runs ≤ 2 ^ 64 := by
  by_contra many
  have same : config.runSeed 0 (2 ^ 64) = config.runSeed 0 0 :=
    runSeed_eq_iff.2 (by unfold Nat.ModEq; omega)
  have := (differ 0 (2 ^ 64) 0 0 some_row (by omega) some_row (by omega) same).2
  omega

/-- Where the seeds differ, no row reaches another one, in either direction. -/
theorem SeedsDiffer.apart (differ : config.SeedsDiffer) {rows : Nat} (pos : 0 < rows)
    (lt : rows < config.rows) : config.runs ≤ gap rows ∧ gap rows + config.runs ≤ 2 ^ 64 := by
  constructor
  · by_contra many
    have same := runSeed_eq_of_gap config 0 rows 0
    rw [Nat.zero_add, Nat.zero_add] at same
    have := (differ rows 0 0 (gap rows) lt (by omega) (by omega) (by omega) same).1
    omega
  · by_contra many
    have bound : gap rows < 2 ^ 64 := Nat.mod_lt _ (by decide)
    have same : config.runSeed rows (2 ^ 64 - gap rows) = config.runSeed 0 0 := by
      rw [runSeed_eq_iff]
      unfold gap Nat.ModEq at *
      omega
    have := (differ rows (2 ^ 64 - gap rows) 0 0 lt (by omega) (by omega) (by omega) same).1
    omega

/-- Two runs of one seed, `rows` rows apart, have numbers that differ by the gap of as many rows, and so
are one run if no row reaches so far. -/
theorem same_run {row run rows run' : Nat} (few : config.runs ≤ 2 ^ 64)
    (apart : 0 < rows → config.runs ≤ gap rows ∧ gap rows + config.runs ≤ 2 ^ 64)
    (hrun : run < config.runs) (hrun' : run' < config.runs)
    (same : config.runSeed row run = config.runSeed (row + rows) run') : rows = 0 ∧ run = run' := by
  rw [runSeed_eq_of_gap, runSeed_eq_iff] at same
  have shifted : run % 2 ^ 64 = (run' + gap rows) % 2 ^ 64 := same.add_left_cancel'
  rcases Nat.eq_zero_or_pos rows with rfl | pos
  · have none_apart : gap 0 = 0 := rfl
    omega
  · obtain ⟨below, above⟩ := apart pos
    omega

/-- The seeds of an experiment differ exactly if no row has more runs than there are words, nor more than
lie between it and another row, in either direction. -/
theorem seedsDiffer_iff : config.SeedsDiffer ↔ (0 < config.rows → config.runs ≤ 2 ^ 64) ∧
    ∀ rows, 0 < rows → rows < config.rows →
      config.runs ≤ gap rows ∧ gap rows + config.runs ≤ 2 ^ 64 := by
  refine ⟨fun differ => ⟨differ.runs_le, fun rows => differ.apart⟩, ?_⟩
  rintro ⟨few, apart⟩ row run row' run' hrow hrun hrow' hrun' same
  have few := few (by omega)
  rcases Nat.le_total row row' with le | le
  · obtain ⟨rows, rfl⟩ := Nat.exists_eq_add_of_le le
    obtain ⟨rfl, rfl⟩ := same_run few (fun pos => apart rows pos (by omega)) hrun hrun' same
    exact ⟨rfl, rfl⟩
  · obtain ⟨rows, rfl⟩ := Nat.exists_eq_add_of_le le
    obtain ⟨rfl, rfl⟩ := same_run few (fun pos => apart rows pos (by omega)) hrun' hrun same.symm
    exact ⟨rfl, rfl⟩

/-- As long as no offset is beyond the words, the seeds differ exactly if there is one row only, or no row
reaches the next one. -/
theorem seedsDiffer_iff_of_le (fits : config.rows * seedStride + config.runs ≤ 2 ^ 64) :
    config.SeedsDiffer ↔ config.rows ≤ 1 ∨ config.runs ≤ seedStride := by
  have gaps : ∀ rows < config.rows, gap rows = rows * seedStride := fun rows lt => by
    have : rows * seedStride < config.rows * seedStride := Nat.mul_lt_mul_of_pos_right lt (by decide)
    exact Nat.mod_eq_of_lt (by omega)
  rw [seedsDiffer_iff]
  unfold seedStride at *
  constructor
  · rintro ⟨-, apart⟩
    by_contra more
    push Not at more
    have := (apart 1 Nat.one_pos more.1).1
    rw [gaps 1 more.1] at this
    omega
  · refine fun h => ⟨fun _ => by omega, fun rows pos lt => ?_⟩
    rw [gaps rows lt]
    omega

end ExperimentConfig

namespace Check

variable [Scalar α]

/-- Any number of runs is accepted, if it is not zero. -/
theorem experiment_runs {config : ExperimentConfig α} (accepted : experiment config = .ok ()) {runs : Nat}
    (some_run : 0 < runs) : experiment { config with runs } = .ok () := by
  simp only [experiment, ite_throw_eq_ok, bind_eq_ok_iff, demand_eq_ok, bne_iff_ne] at accepted ⊢
  obtain ⟨version, trials, -, rest⟩ := accepted
  exact ⟨version, trials, some_run.ne', rest⟩

end Check

namespace Experiment

open ExperimentConfig

variable (γ : Type) [Scalar α] [RandomSource γ]

/-- The runs of accepted settings have different seeds exactly if no row of runs reaches another one,
which nothing that is checked sees to: any number of runs is accepted, and the run after the first
`seedStride` ones of a row replays the first run of the next row. -/
theorem seeds_of_accepted (config : ExperimentConfig α) (accepted : Check.experiment config = .ok ()) :
    (config.SeedsDiffer ↔ (0 < config.rows → config.runs ≤ 2 ^ 64) ∧
      ∀ rows, 0 < rows → rows < config.rows →
        config.runs ≤ gap rows ∧ gap rows + config.runs ≤ 2 ^ 64) ∧
    (config.rows * seedStride + config.runs ≤ 2 ^ 64 →
      (config.SeedsDiffer ↔ config.rows ≤ 1 ∨ config.runs ≤ seedStride)) ∧
    (∀ runs, 0 < runs → Check.experiment { config with runs } = .ok ()) ∧
    ∀ row, seeds γ config row seedStride = seeds γ config (row + 1) 0 := by
  refine ⟨seedsDiffer_iff, seedsDiffer_iff_of_le, fun runs => Check.experiment_runs accepted,
    fun row => ?_⟩
  have same := runSeed_eq_of_gap config row 1 0
  rw [Nat.zero_add] at same
  unfold seeds
  rw [same]
  rfl

/-- A million and four runs against each of two panels without experts. -/
def crowdedExperiment : ExperimentConfig Rat :=
  { ExperimentConfig.standard with runs := 1000004, panels := [⟨"one", []⟩, ⟨"two", []⟩] }

/-- The settings are accepted, and the last run against the first panel has all its seeds from the seed
that the first run against the second panel has them from. -/
theorem seeds_of_crowdedExperiment :
    Check.experiment crowdedExperiment = .ok () ∧ ¬ crowdedExperiment.SeedsDiffer ∧
      crowdedExperiment.runSeed 0 1000003 = crowdedExperiment.runSeed 1 0 ∧
      seeds KeyStream crowdedExperiment 0 1000003 = seeds KeyStream crowdedExperiment 1 0 := by
  have accepted : Check.experiment crowdedExperiment = .ok () := by decide +kernel
  obtain ⟨-, near, -, replayed⟩ := seeds_of_accepted KeyStream crowdedExperiment accepted
  refine ⟨accepted, fun differ => ?_, rfl, replayed 0⟩
  exact absurd ((near (by decide)).1 differ) (by decide)

end Experiment

end Counsel
