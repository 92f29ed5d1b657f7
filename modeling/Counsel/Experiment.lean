/-
Experiments: every panel is run a number of times with a fresh agent, and afterwards the learner
runs alone if a baseline is wanted. The seed of the experiment settles all random draws of all runs.
-/
import Counsel.Run
import Counsel.Trust.Engine

namespace Counsel

/-- The seeds of the random sources of one run. -/
structure RunSeeds where
  environment : UInt64
  learner : UInt64
  trust : UInt64
  panel : UInt64

/-- The seeds drawn from a source. -/
def RunSeeds.draw {γ : Type} [RandomSource γ] (source : γ) : RunSeeds :=
  let (environment, source) := RandomSource.word source
  let (learner, source) := RandomSource.word source
  let (trust, source) := RandomSource.word source
  let (panel, _) := RandomSource.word source
  ⟨environment, learner, trust, panel⟩

/-- What came of an experiment. -/
structure ExperimentReport (α : Type) where
  maxExpectedUtility : α
  records : List (RunRecord α)

namespace ExperimentReport

variable {α : Type}

def forPanel (report : ExperimentReport α) (name : String) : List (RunRecord α) :=
  report.records.filter (·.panel == some name)

def baseline (report : ExperimentReport α) : List (RunRecord α) :=
  report.records.filter (·.panel.isNone)

end ExperimentReport

namespace Experiment

variable {α : Type} (γ : Type) [Scalar α] [Beta.Ranking α] [RandomSource γ]

/-- The seeds of a run against the panel of a number. -/
def seeds (config : ExperimentConfig α) (panel run : Nat) : RunSeeds :=
  RunSeeds.draw (RandomSource.ofSeed (config.runSeed panel run) : γ)

/-- The outcome of a construction. -/
def built {σ β : Type} (result : Except Error β) : Step σ β := liftExcept result

/-- A run against the panel of a number. -/
def panelRun (config : ExperimentConfig α) (diagram : Diagram α) (number : Nat)
    (panelConfig : PanelConfig α) (run : Nat) : Step (Oracle α) (RunRecord α) := do
  let seeds := seeds γ config number run
  let environment : DiagramEnvironment α γ := .ofDiagram diagram seeds.environment
  let learner : GreedyLearner α γ ←
    built (GreedyLearner.ofDiagram diagram config.learner config.trials seeds.learner)
  let trust := { config.trust with seed := seeds.trust }
  let agent ← built (TrustAgent.ofConfig learner trust config.trials)
  let panel : Panel α γ ← built (Panel.ofConfig panelConfig seeds.panel)
  let session : Session _ _ _ := ⟨environment, agent, (panel, ← get)⟩
  let (record, session) := (Run.withPanel config.trials true).answer session
  set session.company.2
  built record

/-- A run of the learner without experts; its seeds are those of one more panel. -/
def baselineRun (config : ExperimentConfig α) (diagram : Diagram α) (run : Nat) :
    Step (Oracle α) (RunRecord α) := do
  let seeds := seeds γ config config.panels.length run
  let environment : DiagramEnvironment α γ := .ofDiagram diagram seeds.environment
  let learner : GreedyLearner α γ ←
    built (GreedyLearner.ofDiagram diagram config.learner config.trials seeds.learner)
  let session : Session _ _ _ := ⟨environment, learner, ← get⟩
  let (record, session) := (Run.alone (Company.oracle true) config.trials).answer session
  set session.company
  built record

/-- All runs of an experiment: those against each panel in turn, then the baseline. -/
def allRuns (config : ExperimentConfig α) (diagram : Diagram α) :
    Step (Oracle α) (List (RunRecord α)) := do
  let runs := List.range config.runs
  let records ← config.panels.zipIdx.mapM fun (panelConfig, number) =>
    runs.mapM (panelRun γ config diagram number panelConfig)
  let baseline ←
    if config.includeBaseline then runs.mapM (baselineRun γ config diagram) else pure []
  return records.flatten ++ baseline

/-- Runs an experiment on a diagram. -/
def run (config : ExperimentConfig α) (diagram : Diagram α) :
    Except Error (ExperimentReport α) := do
  (Check.experiment config).mapError Error.config
  let oracle ← Oracle.ofDiagram diagram
  let (records, _) := (allRuns γ config diagram).answer oracle
  return ⟨oracle.maxExpectedUtility, ← records⟩

end Experiment

end Counsel
