/-
Runs that repeat themselves. Where the parts of one session repeat what those of another one do
(`Session.Rehearsed`), so does every number of trials (`Run.play_repeats`). A run against a panel begins
with a reset, after which the agent is the one that a new agent becomes, and the panel is like a new one; so
the record of the run is that of the new ones (`Run.withPanel_alike`), whatever agent, panel and oracle were
used for before (`reproduces_of_reset`).
-/
import Counsel.Proofs.Experiment.Complete
import Counsel.Proofs.Expert.Panels
import Counsel.Proofs.Oracle.FirstBest
import Counsel.Proofs.Trust.Hearsay

namespace Counsel

open Outcome

variable {ε κ ω α γ δ : Type}

/-! ## Environments -/

namespace Environment

variable [Environment ε α] {states : Layout} {start : ε}

/-- What an environment comes to, trial by trial. -/
inductive Reached (start : ε) : ε → Prop
  | start : Reached start start
  | reset {before after : ε} {state : Assignment} (reached : Reached start before)
      (ran : answer Environment.reset before = (.ok state, after)) : Reached start after
  | stepped {before after : ε} {action : Assignment} {reward : α} (reached : Reached start before)
      (ran : answer (Environment.step action) before = (.ok reward, after)) : Reached start after

/-- An environment that shows states over the names of a layout. -/
def Shows (states : Layout) (start : ε) : Prop :=
  ∀ before, Reached start before → ∀ state after,
    answer Environment.reset before = (.ok state, after) → states.Covers state

theorem Shows.reset_repeats (shows : Shows states start) :
    Repeats (fun s t => s = t ∧ Reached start s) Environment.reset states.Covers :=
  Step.Ensures.repeats fun before reached state after ran =>
    ⟨.reset reached ran, shows before reached state after ran⟩

theorem step_repeats (action : Assignment) :
    Repeats (fun s t => s = t ∧ Reached start s) (Environment.step action : Step ε α) fun _ => True :=
  Step.Ensures.repeats fun _ reached _ _ ran => ⟨.stepped reached ran, trivial⟩

end Environment

/-- The environment of a diagram shows states of the diagram. -/
theorem DiagramEnvironment.shows [RandomSource γ] {d : Diagram Rat} (h : d.WellFormed) (likely : d.Likely)
    {states : Layout} (lays : d.Lays .chance states) {start : DiagramEnvironment Rat γ}
    (on : start.diagram = d) : Environment.Shows states start := by
  have stays : ∀ env, Environment.Reached start env → env.diagram = d := by
    intro env reached
    induction reached with
    | start => exact on
    | reset _ ran ih => exact ((reset_yields h likely).ensures _ ih _ _ ran).diagram
    | @stepped before after action reward _ ran ih =>
      have same : answer (DiagramEnvironment.step action) before =
          ((before.diagram.utilityAt (Assignment.merge before.state action)).mapError .model, before) :=
        (answer_get_bind _ _).trans (Step.answer_ofModel _ _)
      cases (congrArg Prod.snd (same.symm.trans ran) : before = after)
      exact ih
  intro before reached state after ran
  exact lays.covers h ((reset_yields h likely).ensures before (stays before reached) _ _ ran).possible.assigns

/-! ## Trials -/

namespace Session

variable {met : ε → ε → Prop} {agents : κ → κ → Prop} {companies : ω → ω → Prop}

/-- Two sessions whose parts are in these relations. -/
structure Paired (met : ε → ε → Prop) (agents : κ → κ → Prop) (companies : ω → ω → Prop)
    (s t : Session ε κ ω) : Prop where
  environment : met s.environment t.environment
  agent : agents s.agent t.agent
  company : companies s.company t.company

section Parts

variable {β : Type} {good : β → Prop}

theorem environmentStep_repeats {step : Step ε β} (h : Repeats met step good) :
    Repeats (Paired met agents companies) (environmentStep step) good :=
  Step.repeats_within h (fun _ _ k => k.environment) fun _ _ k _ _ met => { k with environment := met }

theorem agentStep_repeats {step : Step κ β} (h : Repeats agents step good) :
    Repeats (Paired met agents companies) (agentStep step) good :=
  Step.repeats_within h (fun _ _ k => k.agent) fun _ _ k _ _ agent => { k with agent }

theorem companyStep_repeats {step : Step ω β} (h : Repeats companies step good) :
    Repeats (Paired met agents companies) (companyStep step) good :=
  Step.repeats_within h (fun _ _ k => k.company) fun _ _ k _ _ company => { k with company }

end Parts

variable [Environment ε α] [Agent κ α] {shown fair : Assignment → Prop} {company : Company ω α}

/-- What the parts of two sessions keep to if one repeats the other. The states are of a kind that is
`shown`, the actions and the advice are `fair`, and on such states, actions and advice each part does the
same in both sessions. -/
structure Rehearsed (shown fair : Assignment → Prop) (company : Company ω α) (met : ε → ε → Prop)
    (agents : κ → κ → Prop) (companies : ω → ω → Prop) : Prop where
  reset : Repeats met (Environment.reset : Step ε Assignment) shown
  act : ∀ state, Repeats agents (Agent.act state true : Step κ Assignment) fair
  step : ∀ action, Repeats met (Environment.step action : Step ε α) fun _ => True
  regret : ∀ tell ∈ company.regret, ∀ {state} reward, shown state →
    Repeats companies (tell state reward) fun _ => True
  advise : ∀ {state action}, shown state → fair action →
    Repeats companies (company.advise state action) fun advice => ∀ id, ∀ a ∈ advice.advice? id, fair a
  learn : ∀ trial {advice : AdviceBundle}, (∀ id, ∀ a ∈ advice.advice? id, fair a) →
    Repeats agents (Agent.learn trial advice : Step κ Unit) fun _ => True

/-- A trial repeats itself. -/
theorem trial_repeats (rehearsed : Rehearsed shown fair company met agents companies) :
    Repeats (Paired met agents companies) (trial company) fun _ => True := by
  refine (environmentStep_repeats rehearsed.reset).bind fun state state_in => ?_
  refine (agentStep_repeats (rehearsed.act state)).bind fun action action_in => ?_
  refine (environmentStep_repeats (rehearsed.step action)).bind fun reward _ => ?_
  have told : Repeats (Paired met agents companies)
      (company.regret.mapM fun regret => companyStep (ε := ε) (κ := κ) (regret state reward))
      fun _ => True := by
    cases watched : company.regret with
    | none => exact .pure trivial
    | some tell =>
      exact (companyStep_repeats (rehearsed.regret tell watched reward state_in)).map fun _ _ => trivial
  refine told.bind fun regret _ => ?_
  refine (companyStep_repeats (rehearsed.advise state_in action_in)).bind fun advice heard => ?_
  refine (agentStep_repeats (rehearsed.learn _ heard)).bind fun _ _ => ?_
  exact .pure trivial

end Session

/-! ## Runs -/

namespace Run

section Play

variable [Environment ε α] [Agent κ α] {shown fair : Assignment → Prop} {company : Company ω α}
  {met : ε → ε → Prop} {agents : κ → κ → Prop} {companies : ω → ω → Prop}

/-- Every number of trials repeats itself. -/
theorem play_repeats [Scalar α] (rehearsed : Session.Rehearsed shown fair company met agents companies)
    (trials : Nat) : Repeats (Session.Paired met agents companies) (play company trials) fun _ => True :=
  (Step.repeats_times (Session.trial_repeats rehearsed) trials).bind fun _ _ => .pure trivial

end Play

variable [Scalar α] {d : Diagram α} {made : Oracle α}

/-- Panels that are alike, beside oracles that can be relied on, tell the same regret. -/
theorem regretOf_repeats (h : d.WellFormed) (new : made.New d) {state : Assignment}
    (state_in : made.states.Covers state) (reward : α) :
    Repeats (Panel.Twins (γ := δ) made) (Company.ofOracle (Company.regretOf state reward)) fun _ => True := by
  have best : Repeats (fun s t => Oracle.Faithful made s ∧ Oracle.Faithful made t)
      (Oracle.bestExpectedUtility state) fun _ => True :=
    .of_settles (Oracle.bestExpectedUtility_settles h new state_in) fun _ _ => trivial
  have told : Repeats (fun s t => Oracle.Faithful made s ∧ Oracle.Faithful made t)
      (Company.regretOf state reward) fun _ => True := best.bind fun _ _ => .pure trivial
  exact Step.repeats_within told (fun _ _ twins => ⟨twins.first, twins.second⟩)
    fun _ _ twins _ _ oracles => { twins with first := oracles.1, second := oracles.2 }

variable [RandomSource δ] [Environment ε α] [Agent κ α] {start : ε} {kept : κ → Prop}

/-- One agent beside panels that are alike. -/
theorem rehearsed_panel (h : d.WellFormed) (new : made.New d) (shows : Environment.Shows made.states start)
    (honest : Agent.Honest made.actions.Covers kept) (watched : Bool) :
    Session.Rehearsed made.states.Covers made.actions.Covers (Company.panel (γ := δ) watched)
      (fun s t => s = t ∧ Environment.Reached start s) (fun s t => s = t ∧ kept s) (Panel.Twins made) where
  reset := shows.reset_repeats
  act state := (honest.act state true).repeats
  step := Environment.step_repeats
  regret := by
    rintro tell told state reward state_in
    cases watched with
    | false => cases told
    | true =>
      cases told
      exact regretOf_repeats h new state_in reward
  advise := Panel.advise_repeats h new
  learn trial _ heard := ((honest.learn trial heard).imp (fun _ k => k) fun _ _ k => ⟨k, trivial⟩).repeats

/-- Where a reset makes the same agent of two, and like panels of two, a run against the one panel gives the
record of a run against the other. -/
theorem withPanel_alike (h : d.WellFormed) (new : made.New d) (shows : Environment.Shows made.states start)
    (honest : Agent.Honest made.actions.Covers kept) (trials : Nat) (watched : Bool) :
    Alike (Session.Paired (fun s t => s = t ∧ Environment.Reached start s)
        (fun s t => ∀ ids, Agent.reset ids s = Agent.reset ids t ∧ kept (Agent.reset ids s))
        fun s t : Panel α δ × Oracle α => Panel.Twins made (s.1.reset, s.2) (t.1.reset, t.2))
      (withPanel trials watched) (withPanel trials watched) fun record record' _ _ => record = record' := by
  refine Alike.bind (Alike.change
    (M := fun _ _ => Session.Paired (fun s t => s = t ∧ Environment.Reached start s)
      (fun s t => s = t ∧ kept s) (Panel.Twins (γ := δ) made)) fun s t paired => ?_) fun _ _ => ?_
  · have ids : s.company.1.ids = t.company.1.ids :=
      (Panel.ids_reset _).symm.trans (paired.company.ids_eq.trans (Panel.ids_reset _))
    obtain ⟨same, able⟩ := paired.agent s.company.1.ids
    exact ⟨paired.environment, ⟨ids ▸ same, able⟩, paired.company⟩
  · refine Alike.bind (play_repeats (rehearsed_panel h new shows honest watched) trials)
      fun outcome outcome' => ?_
    refine Alike.given (fun _ _ played => played.1) fun same => ?_
    refine Alike.read_bind fun s t played => Alike.pure fun _ _ _ => ?_
    rw [same, played.2.2.agent.1, played.2.2.company.name]

/-- However the panel and the oracle beside it were used, runs of the used agent give the records that runs
of the other one give against the panel as it was made, beside an oracle however used. -/
def Reproduces (made : Oracle α) (panel : Panel α δ) (environment : ε) (used fresh : κ) : Prop :=
  ∀ both oracle, Panel.Arises made panel both → Panel.Arises made panel (panel, oracle) →
    ∀ trials watched,
      (answer (withPanel trials watched) ⟨environment, used, both⟩).1.toOption =
        (answer (withPanel trials watched) ⟨environment, fresh, (panel, oracle)⟩).1.toOption

/-- An agent that a reset makes the same as another one gives its records. -/
theorem reproduces_of_reset (h : d.WellFormed) (new : made.New d) {panel : Panel α δ}
    (panel_new : panel.New made) (shows : Environment.Shows made.states start)
    (honest : Agent.Honest made.actions.Covers kept) {used fresh : κ}
    (same : ∀ ids, Agent.reset ids used = Agent.reset ids fresh)
    (able : ∀ ids, kept (Agent.reset ids fresh)) : Reproduces made panel start used fresh := by
  intro both oracle arises arises' trials watched
  have twins := (arises.grown h new panel_new).reset_twins (arises'.grown h new panel_new)
  have alike := withPanel_alike (δ := δ) h new shows honest trials watched ⟨start, used, both⟩
    ⟨start, fresh, (panel, oracle)⟩ ⟨⟨rfl, .start⟩, fun ids => ⟨same ids, same ids ▸ able ids⟩, twins⟩
  exact both_eq_iff.1 alike

variable [RandomSource γ] {states actions : Layout} {learning : LearnerConfig α} {horizon : Nat}
  {seed : UInt64} {learner : GreedyLearner α γ}

/-- A reset erases what was before. Against a panel of experts of any kinds, in any environment that shows
states over the chance variables, a learner, an agent that weighs advice and one that follows it give the
records that they would give if they and the panel had just been made, for every number of trials, with
regrets or without, whatever they and the panel, its experts and the oracle were asked before. -/
theorem withPanel_reproduces [Beta.Ranking α] {decl : Declaration α} (built : decl.build = .ok d)
    (made_of : Oracle.ofDiagram d = .ok made) {panel : Panel α δ} (panel_new : panel.New made)
    {environment : ε} (shows : Environment.Shows made.states environment)
    (within : actions.names ⊆ made.actions.names)
    (learner_of : GreedyLearner.ofConfig states actions learning horizon seed = .ok learner) :
    (∀ used, GreedyLearner.Used learner used → Reproduces made panel environment used learner) ∧
    (∀ config horizon agent, TrustAgent.ofConfig learner config horizon = .ok agent →
      ∀ requests, Reproduces made panel environment (Agent.after requests agent) agent) ∧
    ∀ seed requests, Reproduces made panel environment
      (Agent.after requests (Follower.ofLearner learner seed)) (Follower.ofLearner learner seed) := by
  have h := Declaration.wellFormed_of_build built
  have new := Oracle.new_of_ofDiagram made_of
  have able := GreedyLearner.fair_of_ofConfig within learner_of
  refine ⟨fun used used_of => ?_, fun config horizon agent agent_of requests => ?_,
    fun seed requests => ?_⟩
  · exact reproduces_of_reset h new panel_new shows GreedyLearner.honest
      (fun _ => used_of.reset_eq) fun _ => able.reset
  · have base := TrustAgent.base_of_ofConfig agent_of
    exact reproduces_of_reset h new panel_new shows TrustAgent.honest
      (fun ids => TrustAgent.forgets.reset_after requests agent ids)
      fun ids => TrustAgent.fair_reset (base ▸ able) ids
  · exact reproduces_of_reset h new panel_new shows Follower.honest
      (fun ids => Follower.forgets.reset_after requests _ ids) fun ids => Follower.fair_reset able ids

end Run

/-! ## A crew on an outing -/

/-- A source that counts its draws. -/
structure Tally where
  drawn : Nat

instance : RandomSource Tally where
  ofSeed seed := ⟨seed.toNat⟩
  unit source := (source.drawn % 8 * (unitSteps / 8), ⟨source.drawn + 1⟩)
  below bound source := (source.drawn % bound, ⟨source.drawn + 1⟩)
  word source := (.ofNat source.drawn, ⟨source.drawn + 1⟩)
  unit_lt source := by
    simp only [unitSteps]
    omega
  below_lt _ _ pos := Nat.mod_lt _ pos

/-- One who is right every other time at first, and less and less often later. -/
def scouts : Panel Rat Tally :=
  (Panel.ofConfig ⟨"scouts", [⟨some "scout", 1/2, .always, some (1/2)⟩]⟩ 3).toOption.get (by decide +kernel)

/-- One who is always right in the rain. -/
def rangers : Panel Rat Tally :=
  (Panel.ofRegions "rangers" [[1/2, 1]] ((StateTable.replicate outingOracle.states 0).setAt 1 1) .always
    outingOracle.states 4).toOption.get (by decide +kernel)

/-- One who does not see the rain. -/
def watchers : Panel Rat Tally :=
  (Panel.ofHidden "watchers" [["Rain"]] .always outingOracle.states outingOracle.actions).toOption.get
    (by decide +kernel)

/-- All of them. -/
def crew : Panel Rat Tally := ⟨"crew", scouts.experts ++ rangers.experts ++ watchers.experts⟩

theorem new_crew : crew.New outingOracle := by
  have scout : scouts.New outingOracle := Panel.new_of_ofConfig (eq_ok_get _)
  have ranger : rangers.New outingOracle := Panel.new_of_ofRegions (eq_ok_get _)
  have watcher : watchers.New outingOracle := Panel.new_of_ofHidden (eq_ok_get _)
  exact List.forall_mem_append.2 ⟨List.forall_mem_append.2 ⟨scout, ranger⟩, watcher⟩

/-- One who learns where to go. -/
def wanderer : GreedyLearner Rat Tally :=
  (GreedyLearner.ofConfig outingOracle.states outingOracle.actions .standard 2 5).toOption.get
    (by decide +kernel)

/-- One who also listens. -/
def pathfinder : TrustAgent Rat Tally :=
  (TrustAgent.ofConfig wanderer .standard 2).toOption.get (by decide +kernel)

/-- A day out in the rain. -/
def wetDay : List (Request Rat) :=
  [.reset ["scout"], .act rain true, .learn ⟨rain, dryPark, 5⟩ (.ofList [("scout", some dryPark)])]

/-- After a day out in the rain, with the crew asked about it, an outing with the crew goes as it would
have gone before; and so it does for a learner who acted at random, and for one who followed all advice. -/
theorem reproduces_of_wetDay :
    letI := Experiment.wholeCounts
    let environment : DiagramEnvironment Rat Tally := .ofDiagram outingDiagram 5
    (∃ record : RunRecord Rat, record.rewards = [5, 2, 2] ∧
      (answer (Run.withPanel 3 true) ⟨environment, pathfinder, (crew, outingOracle)⟩).1 = .ok record ∧
      (answer (Run.withPanel 3 true) ⟨environment, Agent.after wetDay pathfinder,
        (answer (Panel.advise rain dryPark) (crew, outingOracle)).2⟩).1 = .ok record) ∧
    Run.Reproduces outingOracle crew environment (answer GreedyLearner.randomAction wanderer).2 wanderer ∧
    Run.Reproduces outingOracle crew environment
      (Agent.after wetDay (Follower.ofLearner wanderer 6)) (Follower.ofLearner wanderer 6) := by
  let _ := Experiment.wholeCounts
  have h := Declaration.wellFormed_of_build build_outing
  have new := Oracle.new_of_ofDiagram made_outing
  have shows : Environment.Shows outingOracle.states
      (.ofDiagram outingDiagram 5 : DiagramEnvironment Rat Tally) :=
    DiagramEnvironment.shows h (Diagram.likely_of_build build_outing) new.states rfl
  have wanderer_of : GreedyLearner.ofConfig outingOracle.states outingOracle.actions .standard 2 5 =
      .ok wanderer := eq_ok_get _
  obtain ⟨learning, weighing, following⟩ := Run.withPanel_reproduces build_outing made_outing new_crew shows
    (List.Subset.refl _) wanderer_of
  refine ⟨?_, learning _ (.drew .fresh), following 6 wetDay⟩
  have joint : outingOracle.actions.Covers dryPark :=
    Layout.covers_of_mem_assignments (by decide +kernel)
  have shown : (answer (Run.withPanel 3 true) (⟨.ofDiagram outingDiagram 5, pathfinder, (crew, outingOracle)⟩ :
      Session (DiagramEnvironment Rat Tally) _ _)).1.toOption.map (·.rewards) = some [5, 2, 2] := by
    decide +kernel
  obtain ⟨record, told, rewards⟩ := Option.map_eq_some_iff.1 shown
  refine ⟨record, rewards, toOption_eq_some.1 told, toOption_eq_some.1 ?_⟩
  exact (weighing _ _ _ (eq_ok_get _) wetDay _ _ (.advised rain joint .made) .made 3 true).trans told

end Counsel
