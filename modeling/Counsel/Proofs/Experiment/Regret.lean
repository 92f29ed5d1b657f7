/-
Regret where every decision observes every chance variable. The best expected utility of a state that
comes up, found by the solver with the state for evidence, is what the utility table pays for the first of
the best joint actions there (`Oracle.bestExpectedUtility_pays`); so what a trial records is what the
choice of the agent forgoes (`Session.trial_forgoes`), in runs alone and against any panel. No joint action
forgoes less than nothing, and the optimal ones forgo nothing (`regret_of_observant`).
-/
import Counsel.Proofs.Experiment.Run
import Counsel.Proofs.Expert.Advice
import Counsel.Proofs.Oracle.FirstBest
import Counsel.Proofs.Trust.Requests

namespace Counsel

open Outcome

variable {d : Diagram Rat} {γ : Type} [RandomSource γ] {made : Oracle Rat} {state action : Assignment}

/-! ## What a choice forgoes -/

namespace Diagram

/-- By how much the utility of an action in a state falls short of that of the first of the best. -/
def Forgone (d : Diagram Rat) (actions : Layout) (state action : Assignment) (regret : Rat) : Prop :=
  ∃ best u reward, d.FirstBest actions state best ∧
    d.utilityAt (Assignment.merge state best) = .ok u ∧
    d.utilityAt (Assignment.merge state action) = .ok reward ∧ regret = u - reward

variable {actions : Layout} {regret : Rat}

/-- Joint actions forgo something or nothing. -/
theorem Forgone.nonneg (h : d.WellFormed) (lays : d.Lays .decision actions)
    (forgone : d.Forgone actions state action regret) (action_of : d.Assigns .decision action) :
    0 ≤ regret := by
  obtain ⟨best, u, reward, ⟨i, u', -, paid', largest⟩, paid, paid_action, rfl⟩ := forgone
  cases paid.symm.trans paid'
  obtain ⟨j, found⟩ := lays.reads h action_of
  obtain ⟨w, paid_action', le, -⟩ := largest j action ((lays.assignmentAt_iff h).2 ⟨action_of, found⟩)
  cases paid_action.symm.trans paid_action'
  exact sub_nonneg.2 le

/-- The first of the best joint actions forgoes nothing. -/
theorem Forgone.eq_zero (forgone : d.Forgone actions state action regret)
    (best : d.FirstBest actions state action) : regret = 0 := by
  obtain ⟨best', u, reward, best_of, paid, paid_action, rfl⟩ := forgone
  cases best_of.unique best
  cases paid.symm.trans paid_action
  exact sub_self u

end Diagram

/-! ## The oracle -/

namespace Oracle

/-- Where every decision observes every chance variable, an oracle names the first of the best joint
actions. -/
theorem act_best (h : d.WellFormed) (observant : d.Observant) (new : made.New d)
    (state_of : d.Assigns .chance state) :
    Step.Yields (Faithful made) (act state) fun action oracle =>
      Faithful made oracle ∧ d.FirstBest made.actions state action := by
  refine (act_computes h new state_of).imp (fun _ k => k) ?_
  rintro action oracle ⟨faithful, computed, -⟩
  obtain ⟨action', computed', best⟩ := exists_firstBest h observant new (new.states.reads h state_of)
  cases computed.symm.trans computed'
  exact ⟨faithful, best⟩

/-- In a possible state a joint action is worth what it is paid. -/
theorem expectedUtility_pays (h : d.WellFormed) (new : made.New d) (possible : d.Possible state)
    (action_of : d.Assigns .decision action) :
    Step.Yields (Faithful made) (expectedUtility state action) fun u oracle =>
      Faithful made oracle ∧ d.utilityAt (Assignment.merge state action) = .ok u := by
  intro oracle faithful
  obtain ⟨u, paid⟩ := Diagram.exists_utilityAt h fun v hv =>
    Diagram.known_merge h possible.assigns action_of hv
  obtain ⟨told, after⟩ := faithful.expectedUtility h new state action
  have told := told ((new.states.covers h possible.assigns).merge new.joined
    (new.actions.covers h action_of))
  rw [Diagram.worth?_merge h possible action_of, paid] at told
  exact ⟨u, _, Prod.ext (toOption_eq_some.1 told) rfl, after, paid⟩

/-- In a possible state the best expected utility is what the first of the best joint actions is paid. -/
theorem bestExpectedUtility_pays (h : d.WellFormed) (observant : d.Observant) (new : made.New d)
    (possible : d.Possible state) :
    Step.Yields (Faithful made) (bestExpectedUtility state) fun u oracle =>
      Faithful made oracle ∧ ∃ best, d.FirstBest made.actions state best ∧
        d.utilityAt (Assignment.merge state best) = .ok u := by
  refine (act_best h observant new possible.assigns).bind fun best => ?_
  refine Step.Yields.given (fun _ k => k.2) fun first => ?_
  have best_of : d.Assigns .decision best := by
    obtain ⟨i, u, placed, -⟩ := first
    exact ((new.actions.assignmentAt_iff h).1 placed).1
  exact (expectedUtility_pays h new possible best_of).imp (fun _ k => k.1) fun _ _ k =>
    ⟨k.1, best, first, k.2⟩

/-- The regret that is told of what an action is paid is what the action forgoes. -/
theorem regretOf_tells (h : d.WellFormed) (observant : d.Observant) (new : made.New d)
    (possible : d.Possible state) {reward : Rat}
    (paid : d.utilityAt (Assignment.merge state action) = .ok reward) :
    Step.Yields (Faithful made) (Company.regretOf state reward) fun regret oracle =>
      Faithful made oracle ∧ d.Forgone made.actions state action regret :=
  (bestExpectedUtility_pays h observant new possible).bind fun u =>
    Step.Yields.pure fun _ ⟨faithful, best, first, paid_best⟩ =>
      ⟨faithful, best, u, reward, first, paid_best, paid, rfl⟩

end Oracle

/-! ## The parts of a session -/

theorem AdviceBundle.from_empty {ids : List ExpertId} {fair : Assignment → Prop} :
    From ids fair .empty where
  names id named := by simp [NameMap.mem_names, NameMap.get?_empty] at named
  advice id a said := by simp [AdviceBundle.advice?, NameMap.get?_empty] at said

namespace Session

variable {κ ω : Type} [Agent κ Rat]

/-- What an agent keeps to as long as it does not fail: it makes a `choice` in every state that can come
up, if the advice that it learns from is `fair`. -/
structure Chooses (d : Diagram Rat) (fair : AdviceBundle → Prop)
    (choice : Assignment → Assignment → Prop) (kept : κ → Prop) : Prop where
  act : ∀ {state}, d.Possible state → Step.Ensures kept (Agent.act state true) fun action agent =>
    kept agent ∧ choice state action
  joint : ∀ {state action}, choice state action → d.Assigns .decision action
  learn : ∀ {state action reward advice}, d.Possible state → choice state action → fair advice →
    Step.Ensures kept (Agent.learn ⟨state, action, reward⟩ advice) fun _ => kept

/-- What a company keeps to as long as it does not fail: the regret that it tells is what an action
forgoes, and its advice is `fair`. -/
structure Attends (d : Diagram Rat) (actions : Layout) (fair : AdviceBundle → Prop)
    (present : ω → Prop) (company : Company ω Rat) : Prop where
  regret : ∃ tell, company.regret = some tell ∧ ∀ {state action reward}, d.Possible state →
    d.utilityAt (Assignment.merge state action) = .ok reward →
    Step.Ensures present (tell state reward) fun regret company =>
      present company ∧ d.Forgone actions state action regret
  advise : ∀ {state action}, d.Possible state →
    Step.Ensures present (company.advise state action) fun advice company =>
      present company ∧ fair advice

section Parts

variable {ε β : Type} {met : ε → Prop} {agent : κ → Prop} {present : ω → Prop}

omit [Agent κ Rat] in
theorem agentStep_ensures {step : Step κ β} {after : β → κ → Prop}
    (h : Step.Ensures agent step after) :
    Step.Ensures (Holds met agent present) (agentStep step) fun b => Holds met (after b) present :=
  h.within (fun _ s => s.agent) fun _ s _ _ k => { s with agent := k }

omit [Agent κ Rat] in
theorem companyStep_ensures {step : Step ω β} {after : β → ω → Prop}
    (h : Step.Ensures present step after) :
    Step.Ensures (Holds met agent present) (companyStep step) fun b => Holds met agent (after b) :=
  h.within (fun _ s => s.company) fun _ s _ _ k => { s with company := k }

end Parts

variable {fair : AdviceBundle → Prop} {choice : Assignment → Assignment → Prop} {kept : κ → Prop}
  {present : ω → Prop} {company : Company ω Rat} {actions : Layout}

/-- A regret that an agent of such choices has in a state that can come up. -/
def Regret (d : Diagram Rat) (actions : Layout) (choice : Assignment → Assignment → Prop)
    (regret : Rat) : Prop :=
  ∃ state action, d.Possible state ∧ choice state action ∧ d.Forgone actions state action regret

/-- A trial that does not fail records what the choice of the agent forgoes. -/
theorem trial_forgoes (h : d.WellFormed) (likely : d.Likely) (chooses : Chooses d fair choice kept)
    (attends : Attends d actions fair present company) :
    Step.Ensures (Holds (On (γ := γ) d) kept present) (trial company) fun outcome session =>
      session.Holds (On d) kept present ∧ ∃ r, outcome.2 = some r ∧ Regret d actions choice r := by
  obtain ⟨tell, told, tells⟩ := attends.regret
  rw [trial, told]
  refine (environmentStep_yields (DiagramEnvironment.reset_yields h likely)).ensures.bind fun state => ?_
  refine Step.Ensures.given (fun _ s => s.environment.possible) fun possible => ?_
  refine (agentStep_ensures (chooses.act possible)).bind fun action => ?_
  refine Step.Ensures.given (fun _ s => s.agent.2) fun chosen => ?_
  refine (environmentStep_yields (DiagramEnvironment.step_yields h (chooses.joint chosen))).ensures.bind
    fun reward => ?_
  refine Step.Ensures.given (fun _ s => s.environment.2) fun paid => ?_
  have told : Step.Ensures (Holds (On (γ := γ) d) kept present)
      (some <$> companyStep (tell state reward)) fun regret session =>
        session.Holds (On d) kept present ∧ ∃ r, regret = some r ∧ Regret d actions choice r :=
    (companyStep_ensures (tells possible paid)).map fun r _ s =>
      ⟨{ s with company := s.company.1 }, r, rfl, state, action, possible, chosen, s.company.2⟩
  refine (told.of_imp fun _ s => ⟨s.environment.1, s.agent.1, s.company⟩).bind fun regret => ?_
  refine Step.Ensures.given (fun _ s => s.2) fun given => ?_
  refine ((companyStep_ensures (attends.advise possible)).of_imp fun _ s => s.1).bind fun advice => ?_
  refine Step.Ensures.given (fun _ s => s.company.2) fun heard => ?_
  refine ((agentStep_ensures (chooses.learn possible chosen heard)).of_imp
    fun _ s => { s with company := s.company.1 }).bind fun _ => ?_
  exact Step.Ensures.pure fun _ s => ⟨s, given⟩

end Session

/-! ## Companies -/

/-- A faithful oracle keeps to its side; there is no advice. -/
theorem Session.attends_oracle (h : d.WellFormed) (observant : d.Observant) (new : made.New d) :
    Attends d made.actions (AdviceBundle.From [] (d.Assigns .decision)) (Oracle.Faithful made)
      (Company.oracle true) where
  regret := ⟨_, rfl, fun possible paid => (Oracle.regretOf_tells h observant new possible paid).ensures⟩
  advise _ := Step.Ensures.pure fun _ k => ⟨k, AdviceBundle.from_empty⟩

/-- So does any panel with a faithful oracle. -/
theorem Session.attends_panel (h : d.WellFormed) (observant : d.Observant) (new : made.New d)
    (ids : List ExpertId) :
    Attends d made.actions (AdviceBundle.From ids (d.Assigns .decision))
      (fun both : Panel Rat γ × Oracle Rat => both.1.ids = ids ∧ Oracle.Faithful made both.2)
      (Company.panel true) where
  regret := ⟨_, rfl, fun possible paid =>
    (Oracle.regretOf_tells h observant new possible paid).ensures.within (fun _ k => k.2)
      fun _ k _ _ told => ⟨⟨k.1, told.1⟩, told.2⟩⟩
  advise possible := Panel.advise_ensures h new possible.assigns

/-! ## Runs -/

/-- A regret for each trial, and all of them are of a kind. -/
def RunRecord.Regrets (trials : Nat) (good : Rat → Prop) (record : RunRecord Rat) : Prop :=
  ∃ regrets, record.regret = some regrets ∧ regrets.length = trials ∧ ∀ r ∈ regrets, good r

theorem RunRecord.Regrets.imp {trials : Nat} {good good' : Rat → Prop} {record : RunRecord Rat}
    (h : record.Regrets trials good) (k : ∀ r, good r → good' r) : record.Regrets trials good' := by
  obtain ⟨regrets, told, length, each⟩ := h
  exact ⟨regrets, told, length, fun r hr => k r (each r hr)⟩

namespace Run

variable {κ : Type} [Agent κ Rat] {fair : AdviceBundle → Prop}
  {choice : Assignment → Assignment → Prop} {kept : κ → Prop} {actions : Layout}

section Play

variable {ω : Type} {present : ω → Prop} {company : Company ω Rat}

/-- As many trials as are played record what the choices of the agent forgo. -/
theorem play_forgoes (h : d.WellFormed) (likely : d.Likely)
    (chooses : Session.Chooses d fair choice kept)
    (attends : Session.Attends d actions fair present company) (trials : Nat) :
    Step.Ensures (Session.Holds (Session.On (γ := γ) d) kept present) (play company trials)
      fun outcome _ => ∃ regrets, outcome.2 = some regrets ∧ regrets.length = trials ∧
        ∀ r ∈ regrets, Session.Regret d actions choice r := by
  obtain ⟨tell, told, -⟩ := attends.regret
  refine (Step.Ensures.times (Session.trial_forgoes h likely chooses attends) trials).bind
    fun outcomes => Step.Ensures.pure fun session ⟨_, length, each⟩ => ?_
  refine ⟨outcomes.filterMap (·.2), by rw [told, Option.map_some], ?_, fun r hr => ?_⟩
  · rw [← length, List.length_filterMap_eq_countP, List.countP_eq_length]
    intro outcome mem
    obtain ⟨r, given, -⟩ := each outcome mem
    rw [given]
    rfl
  · obtain ⟨outcome, mem, given⟩ := List.mem_filterMap.1 hr
    obtain ⟨r', given', regret⟩ := each outcome mem
    cases given.symm.trans given'
    exact regret

/-- So does a run without experts. -/
theorem alone_forgoes (h : d.WellFormed) (likely : d.Likely)
    (chooses : Session.Chooses d fair choice kept)
    (attends : Session.Attends d actions fair present company) (trials : Nat) :
    Step.Ensures (Session.Holds (Session.On (γ := γ) d) (fun agent => kept (Agent.reset [] agent)) present)
      (alone company trials) fun record _ =>
        record.Regrets trials (Session.Regret d actions choice) := by
  have forgotten : Step.Yields
      (Session.Holds (Session.On (γ := γ) d) (fun agent => kept (Agent.reset [] agent)) present)
      (modify fun session => { session with agent := Agent.reset [] session.agent }) fun _ =>
        Session.Holds (Session.On d) kept present :=
    Step.Yields.change fun _ s => { s with agent := s.agent }
  refine forgotten.ensures.bind fun _ =>
    (play_forgoes h likely chooses attends trials).bind fun outcome => ?_
  exact Step.Ensures.read_bind fun _ _ => Step.Ensures.pure fun _ k => k

end Play

variable {δ : Type} [RandomSource δ]

/-- And so does a run against a panel. -/
theorem withPanel_forgoes (h : d.WellFormed) (likely : d.Likely) {ids : List ExpertId}
    (chooses : Session.Chooses d fair choice kept)
    (attends : Session.Attends d actions fair
      (fun both : Panel Rat δ × Oracle Rat => both.1.ids = ids ∧ Oracle.Faithful made both.2)
      (Company.panel true)) (trials : Nat) :
    Step.Ensures (Session.Holds (Session.On (γ := γ) d) (fun agent => kept (Agent.reset ids agent))
        fun both : Panel Rat δ × Oracle Rat => both.1.ids = ids ∧ Oracle.Faithful made both.2)
      (withPanel trials true) fun record _ =>
        record.Regrets trials (Session.Regret d actions choice) := by
  have forgotten : Step.Yields
      (Session.Holds (Session.On (γ := γ) d) (fun agent => kept (Agent.reset ids agent))
        fun both : Panel Rat δ × Oracle Rat => both.1.ids = ids ∧ Oracle.Faithful made both.2)
      (modify fun session =>
        { session with
          agent := Agent.reset session.company.1.ids session.agent
          company := (session.company.1.reset, session.company.2) }) fun _ =>
        Session.Holds (Session.On d) kept
          fun both : Panel Rat δ × Oracle Rat => both.1.ids = ids ∧ Oracle.Faithful made both.2 :=
    Step.Yields.change fun session s => ⟨s.environment, s.company.1 ▸ s.agent,
      (Panel.ids_reset _).trans s.company.1, s.company.2⟩
  refine forgotten.ensures.bind fun _ =>
    (play_forgoes h likely chooses attends trials).bind fun outcome => ?_
  exact Step.Ensures.read_bind fun _ _ => Step.Ensures.pure fun _ k => k

end Run

/-! ## Agents -/

namespace Agent

variable {κ : Type} [Agent κ Rat] {states actions : Layout} {ids : List ExpertId}

/-- The states that an agent can come to after a reset for some experts, while what it is asked keeps to
the layouts of the states and the joint actions and only those experts speak. -/
inductive Reached (states actions : Layout) (ids : List ExpertId) (agent : κ) : κ → Prop
  | reset : Reached states actions ids agent (Agent.reset ids agent)
  | acted {before after : κ} {state action : Assignment} {explore : Bool}
      (reached : Reached states actions ids agent before) (state_of : states.Reads state)
      (ran : answer (Agent.act state explore) before = (.ok action, after)) :
      Reached states actions ids agent after
  | learned {before after : κ} {trial : Trial Rat} {advice : AdviceBundle}
      (reached : Reached states actions ids agent before) (state_of : states.Reads trial.state)
      (action_of : trial.action ∈ actions.assignments)
      (heard : advice.From ids (· ∈ actions.assignments))
      (ran : answer (Agent.learn trial advice) before = (.ok (), after)) :
      Reached states actions ids agent after

/-- An agent that, whenever it names an action, names a joint action. -/
def NamesJointActions (states actions : Layout) (agent : κ) : Prop :=
  ∀ ids before, Reached states actions ids agent before → ∀ {state explore action after},
    states.Reads state → answer (Agent.act state explore) before = (.ok action, after) →
      action ∈ actions.assignments

/-- An agent that does well under an invariant names joint actions. -/
theorem Serves.namesJointActions {ready : List ExpertId → κ → Prop}
    (serves : Serves states actions ready) {agent : κ} (start : ∃ ids, ready ids agent) :
    NamesJointActions states actions agent := by
  have holds : ∀ ids before, Reached states actions ids agent before → ready ids before := by
    intro ids before reached
    induction reached with
    | reset => exact start.elim fun _ k => serves.reset ids k
    | acted _ state_of ran ih => exact ((serves.act _ state_of).ensures _ ih _ _ ran).1
    | learned _ state_of action_of heard ran ih =>
      exact (serves.learn state_of (Layout.reads_of_mem_assignments action_of) heard).ensures _ ih _ _ ran
  exact fun ids before reached _ _ _ _ state_of ran =>
    ((serves.act _ state_of).ensures _ (holds ids before reached) _ _ ran).2

/-- Such an agent chooses among the joint actions. -/
theorem NamesJointActions.chooses (h : d.WellFormed) (lays : d.Lays .chance states)
    (lays' : d.Lays .decision actions) {agent : κ} (names : NamesJointActions states actions agent) :
    Session.Chooses d (AdviceBundle.From ids (d.Assigns .decision))
      (fun _ action => d.Assigns .decision action) (Reached states actions ids agent) where
  act possible before reached _ _ ran :=
    have state_of := lays.reads h possible.assigns
    ⟨.acted reached state_of ran, (lays'.mem_assignments h).1 (names ids before reached state_of ran)⟩
  joint := id
  learn possible action_of heard _ reached _ _ ran :=
    .learned reached (lays.reads h possible.assigns) ((lays'.mem_assignments h).2 action_of)
      ⟨heard.names, fun id a said => (lays'.mem_assignments h).2 (heard.advice id a said)⟩ ran

end Agent

namespace OracleAgent

/-- An oracle as an agent chooses the first of the best joint actions. -/
theorem chooses (h : d.WellFormed) (observant : d.Observant) (new : made.New d)
    (fair : AdviceBundle → Prop) :
    Session.Chooses d fair (d.FirstBest made.actions)
      fun agent : OracleAgent Rat => Oracle.Faithful made agent.oracle where
  act possible := (Oracle.act_best h observant new possible.assigns).ensures.within (fun _ k => k)
    fun _ _ _ _ k => k
  joint := fun ⟨_, _, placed, _⟩ => ((new.actions.assignmentAt_iff h).1 placed).1
  learn _ _ _ := Step.Ensures.pure fun _ k => k

/-- Beside another oracle it does not fail. -/
theorem conduct (h : d.WellFormed) (observant : d.Observant) (new : made.New d) :
    Session.Conduct d (Company.oracle true)
      (fun _ (agent : OracleAgent Rat) => Oracle.Faithful made agent.oracle)
      (fun _ agent => Oracle.Faithful made agent.oracle) (Oracle.Faithful made) fun _ => True where
  act _ _ state_of := (Oracle.act_computes h new state_of).within (fun _ k => k)
    fun _ _ _ _ k => ⟨k.1, k.2.2⟩
  learn _ _ _ _ _ _ := Step.Yields.pure fun _ k => k
  regret := ⟨_, rfl, fun _ possible =>
    (Oracle.bestExpectedUtility_pays h observant new possible).bind fun _ =>
      Step.Yields.pure fun _ k => k.1⟩
  advise _ _ := Step.Yields.pure fun _ k => ⟨k, trivial⟩

end OracleAgent

/-! ## Regret in runs -/

/-- Where every decision observes every chance variable and the oracle could be made, no regret that a run
records is negative, whatever the agent is, as long as it names joint actions: alone or against any panel,
for every number of trials and all random draws, and whatever the oracle was asked before. An oracle as an
agent plays every trial, and has no regret. -/
theorem regret_of_observant {decl : Declaration Rat} (built : decl.build = .ok d)
    (observant : d.Observant) (made_of : Oracle.ofDiagram d = .ok made) {oracle : Oracle Rat}
    (arises : made.Arises oracle) {environment : DiagramEnvironment Rat γ}
    (on : environment.diagram = d) {δ : Type} [RandomSource δ] (trials : Nat) :
    (∀ {κ : Type} [Agent κ Rat] (agent : κ),
      Agent.NamesJointActions made.states made.actions agent →
      (∀ record after, answer (Run.alone (Company.oracle true) trials) ⟨environment, agent, oracle⟩ =
          (.ok record, after) → record.Regrets trials (0 ≤ ·)) ∧
      ∀ (panel : Panel Rat δ) record after,
        answer (Run.withPanel trials true) ⟨environment, agent, (panel, oracle)⟩ = (.ok record, after) →
          record.Regrets trials (0 ≤ ·)) ∧
    ∀ own, made.Arises own →
      (∃ record after, answer (Run.alone (Company.oracle true) trials)
          ⟨environment, (⟨own⟩ : OracleAgent Rat), oracle⟩ = (.ok record, after) ∧
        record.Regrets trials (· = 0)) ∧
      ∀ (panel : Panel Rat δ) record after, answer (Run.withPanel trials true)
          ⟨environment, (⟨own⟩ : OracleAgent Rat), (panel, oracle)⟩ = (.ok record, after) →
        record.Regrets trials (· = 0) := by
  have h := Declaration.wellFormed_of_build built
  have likely := Diagram.likely_of_build built
  have new := Oracle.new_of_ofDiagram made_of
  have faithful := arises.faithful h new
  have attends := Session.attends_oracle h observant new
  have attends' := Session.attends_panel (γ := δ) h observant new
  have forgo : ∀ r, Session.Regret d made.actions (fun _ action => d.Assigns .decision action) r → 0 ≤ r :=
    fun r ⟨_, _, _, action_of, forgone⟩ => forgone.nonneg h new.actions action_of
  have forgo_nothing : ∀ r, Session.Regret d made.actions (d.FirstBest made.actions) r → r = 0 :=
    fun r ⟨_, _, _, best, forgone⟩ => forgone.eq_zero best
  refine ⟨fun agent names => ⟨fun record after ran => ?_, fun panel record after ran => ?_⟩,
    fun own arises' => ⟨?_, fun panel record after ran => ?_⟩⟩
  · exact (Run.alone_forgoes h likely (names.chooses h new.states new.actions) attends trials
      ⟨environment, agent, oracle⟩ ⟨on, .reset, faithful⟩ _ _ ran).imp forgo
  · exact (Run.withPanel_forgoes h likely (names.chooses h new.states new.actions) (attends' panel.ids)
      trials ⟨environment, agent, (panel, oracle)⟩ ⟨on, .reset, rfl, faithful⟩ _ _ ran).imp forgo
  · have whole : Session.Holds (Session.On d) (fun agent : OracleAgent Rat =>
        Oracle.Faithful made agent.oracle) (Oracle.Faithful made) ⟨environment, ⟨own⟩, oracle⟩ :=
      ⟨on, arises'.faithful h new, faithful⟩
    obtain ⟨record, after, ran, -⟩ :=
      Run.alone_of_conduct h likely (OracleAgent.conduct h observant new) trials _ whole
    exact ⟨record, after, ran, (Run.alone_forgoes h likely (OracleAgent.chooses h observant new _) attends
      trials _ whole _ _ ran).imp forgo_nothing⟩
  · exact (Run.withPanel_forgoes h likely (OracleAgent.chooses h observant new _) (attends' panel.ids)
      trials ⟨environment, ⟨own⟩, (panel, oracle)⟩ ⟨on, arises'.faithful h new, rfl, faithful⟩ _ _
      ran).imp forgo_nothing

/-- An agent that does the same in every state. -/
structure Habit where
  action : Assignment

instance : Agent Habit Rat where
  name _ := "Habit"
  act _ _ := return (← get).action
  learn _ _ := return ()
  reset _ agent := agent
  takesAdvice _ := false
  history _ := none
  report _ := none

/-- Along the street without a coat. -/
def street : Assignment := NameMap.ofList [("Way", .text "street"), ("Coat", .bool false)]

/-- One who sees the weather, and one who does not. -/
def guides : Panel Rat Still :=
  (Panel.ofHidden "guides" [[], ["Rain"]] .always outingOracle.states outingOracle.actions).toOption.get
    (by decide +kernel)

theorem namesJointActions_street :
    Agent.NamesJointActions outingOracle.states outingOracle.actions (⟨street⟩ : Habit) := by
  have serves : Agent.Serves outingOracle.states outingOracle.actions
      fun _ (agent : Habit) => agent.action ∈ outingOracle.actions.assignments :=
    ⟨fun _ k => k, fun _ _ => Step.Yields.read_bind fun _ k => Step.Yields.pure fun _ k' => ⟨k', k⟩,
      fun _ _ _ => Step.Yields.pure fun _ k => k⟩
  exact serves.namesJointActions ⟨[], by decide +kernel⟩

/-- In dry weather the street forgoes two in each trial, and the oracle as an agent nothing. -/
theorem regret_of_street :
    (∃ record after, answer (Run.withPanel 2 true)
        ⟨(.ofDiagram outingDiagram 0 : DiagramEnvironment Rat Still), (⟨street⟩ : Habit),
          (guides, outingOracle)⟩ = (.ok record, after) ∧
      record.regret = some [2, 2] ∧ record.Regrets 2 (0 ≤ ·)) ∧
    ∃ record after, answer (Run.alone (Company.oracle true) 2)
        ⟨(.ofDiagram outingDiagram 0 : DiagramEnvironment Rat Still), (⟨outingOracle⟩ : OracleAgent Rat),
          outingOracle⟩ = (.ok record, after) ∧ record.Regrets 2 (· = 0) := by
  have on : (DiagramEnvironment.ofDiagram outingDiagram 0 : DiagramEnvironment Rat Still).diagram =
      outingDiagram := rfl
  obtain ⟨joint, optimal⟩ := regret_of_observant (δ := Still) build_outing observant_outing made_outing .made
    on 2
  refine ⟨?_, (optimal _ .made).1⟩
  have shown : (answer (Run.withPanel 2 true)
      (⟨(.ofDiagram outingDiagram 0 : DiagramEnvironment Rat Still), (⟨street⟩ : Habit),
        (guides, outingOracle)⟩ : Session _ _ _)).1.toOption.map (·.regret) = some (some [2, 2]) := by
    decide +kernel
  obtain ⟨record, told, regret⟩ := Option.map_eq_some_iff.1 shown
  have told := toOption_eq_some.1 told
  exact ⟨record, _, Prod.ext told rfl, regret,
    (joint _ namesJointActions_street).2 guides record _ (Prod.ext told rfl)⟩

end Counsel
