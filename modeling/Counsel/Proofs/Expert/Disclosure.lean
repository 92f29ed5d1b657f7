/-
When experts who know the optimal action speak. What their gates observe of a trial are its stakes, what the
best action and the action taken are worth to the diagram (`Oracle.stakes?`), which have nothing to do with
reliabilities, regions, fading or draws (`UnreliableExpert.deliberate_observes`,
`RegionalExpert.deliberate_observes`), and what is advised in between leaves the gates alone. So the trials at
which such an expert speaks are those at which a gate opens that sees the stakes only
(`Expert.disclosures_ensures`), and two such experts speak at the same trials
(`Expert.discloses_alike`).
-/
import Counsel.Proofs.Expert.Forgetting
import Counsel.Proofs.Expert.Gate
import Counsel.Proofs.Expert.History
import Counsel.Proofs.Experiment.Regret
import Counsel.Proofs.Experiment.Reproducible

namespace Counsel

open Outcome

variable {α γ δ κ : Type} [Scalar α] {d : Diagram α} {made : Oracle α} {state action : Assignment}
  {gate : Gate α}

/-! ## Stakes -/

namespace Oracle

/-- What an action is worth in a state, of the variables that the diagram knows. -/
def worth? (made : Oracle α) (state action : Assignment) : Option α :=
  made.diagram.worth? (made.utilities.layout.restrict (Assignment.merge state action))

/-- What the best action is worth in a state, and what the action taken is. -/
def stakes? (made : Oracle α) (state action : Assignment) : Option (α × α) := do
  let best ← (made.computeAction state).toOption
  return (← made.worth? state best, ← made.worth? state action)

theorem act_ensures (state : Assignment) :
    Step.Ensures (Faithful made) (act state) fun best oracle =>
      made.computeAction state = .ok best ∧ Faithful made oracle := by
  intro oracle faithful best after ran
  obtain ⟨told, kept⟩ := faithful.act state
  rw [ran] at told kept
  exact ⟨toOption_eq_some.1 (both_eq_iff.1 told).symm, kept⟩

/-- An answer of an oracle is what the action is worth, whatever the oracle was asked before. -/
theorem expectedUtility_ensures (h : d.WellFormed) (new : made.New d) (state action : Assignment) :
    Step.Ensures (Faithful made) (expectedUtility state action) fun value oracle =>
      made.worth? state action = some value ∧ Faithful made oracle := by
  intro oracle faithful value after ran
  have worth := faithful.worth_of_answer h new (congrArg Prod.fst ran)
  rw [← new.diagram] at worth
  exact ⟨worth, (expectedUtility_retains h new state action).ensures oracle faithful value after ran⟩

theorem bestExpectedUtility_ensures (h : d.WellFormed) (new : made.New d) (state : Assignment) :
    Step.Ensures (Faithful made) (bestExpectedUtility state) fun value oracle =>
      (∃ best, made.computeAction state = .ok best ∧ made.worth? state best = some value) ∧
        Faithful made oracle := by
  refine (act_ensures state).bind fun best => Step.Ensures.given (fun _ k => k.1) fun computed => ?_
  exact (expectedUtility_ensures h new state best).imp (fun _ k => k.2) fun _ _ k =>
    ⟨⟨best, computed, k.1⟩, k.2⟩

end Oracle

/-! ## One trial -/

namespace Consult

variable {view : κ → Gate α} {observe : α → α → κ → Bool × κ}
  {next : Bool → Consult α κ (Option Assignment)}

/-- An expert whose gate observes a trial, and who speaks exactly if it opens, speaks exactly if the stakes of
the trial open the gate. -/
theorem attend_observes (h : d.WellFormed) (new : made.New d)
    (observed : ∀ optimal agent expert,
      ((observe optimal agent expert).1, view (observe optimal agent expert).2) =
        (view expert).observe optimal agent)
    (spoken : ∀ opened gate, Step.Ensures (Beside view gate made) (next opened) fun said both =>
      said.isSome = opened ∧ Beside view gate made both) :
    Step.Ensures (Beside view gate made) (attend state action observe next) fun said both =>
      ∃ stakes, made.stakes? state action = some stakes ∧
        said.isSome = (gate.observe stakes.1 stakes.2).1 ∧
        Beside view (gate.observe stakes.1 stakes.2).2 made both := by
  refine (ask_ensures (Oracle.bestExpectedUtility_ensures h new state)).bind fun optimal => ?_
  refine Step.Ensures.given (fun _ k => k.2.1) fun ⟨best, computed, worth⟩ => ?_
  refine Step.Ensures.bind ((ask_ensures (Oracle.expectedUtility_ensures h new state action)).of_imp
    fun _ k => ⟨k.1, k.2.2⟩) fun agent => ?_
  refine Step.Ensures.given (fun _ k => k.2.1) fun taken => ?_
  have stakes : made.stakes? state action = some (optimal, agent) := by
    rw [Oracle.stakes?, computed, taken]
    show (made.worth? state best).bind _ = _
    rw [worth]
    rfl
  have opening : Step.Ensures (Beside view gate made) (update (observe optimal agent)) fun opened both =>
      opened = (gate.observe optimal agent).1 ∧ Beside view (gate.observe optimal agent).2 made both := by
    rintro ⟨expert, oracle⟩ ⟨rfl, faithful⟩ opened after ran
    cases ran
    have same := observed optimal agent expert
    exact ⟨congrArg Prod.fst same, congrArg Prod.snd same, faithful⟩
  refine Step.Ensures.bind (opening.of_imp fun _ k => ⟨k.1, k.2.2⟩) fun opened => ?_
  refine Step.Ensures.given (fun _ k => k.1) fun by_gate => ?_
  exact (spoken opened _).imp (fun _ k => k.2) fun _ _ k =>
    ⟨(optimal, agent), stakes, k.1.trans by_gate, k.2⟩

/-- Advice that is given, if what would be advised leaves the gate alone. -/
theorem given_ensures {step : Consult α κ Assignment} (steady : Step.Keeps (Steady (Step.Same view) made) step)
    (opened : Bool) (gate : Gate α) :
    Step.Ensures (Beside view gate made) (if opened then some <$> step else pure none) fun said both =>
      said.isSome = opened ∧ Beside view gate made both := by
  have kept : Step.Ensures (Beside view gate made) step fun _ => Beside view gate made :=
    Step.Keeps.ensures fun both => (steady both).retains
  split
  next opens => exact kept.map fun _ _ k => ⟨opens.symm, k⟩
  next closed => exact .pure fun _ k => ⟨(Bool.not_eq_true _ ▸ closed).symm, k⟩

end Consult

section Experts

variable [RandomSource γ]

/-- What such an expert draws, and how far it has faded, do not tell when it speaks. -/
theorem UnreliableExpert.deliberate_observes (h : d.WellFormed) (new : made.New d) :
    Step.Ensures (Consult.Beside (·.gate) gate made) (deliberate (γ := γ) state action) fun said both =>
      ∃ stakes, made.stakes? state action = some stakes ∧
        said.isSome = (gate.observe stakes.1 stakes.2).1 ∧
        Consult.Beside (·.gate) (gate.observe stakes.1 stakes.2).2 made both := by
  rw [deliberate_eq]
  refine Consult.attend_observes h new (fun _ _ _ => rfl) fun opened gate => ?_
  have given : Step.Ensures (Consult.Beside (·.gate) gate made)
      (if opened then some <$> advise (γ := γ) state else pure none) fun said both =>
        said.isSome = opened ∧ Consult.Beside (·.gate) gate made both :=
    Consult.given_ensures (advise_steady (fun _ _ => rfl) state) opened gate
  have faded : Step.Ensures (Consult.Beside (·.gate) gate made) (Consult.update (fade (α := α) (γ := γ)))
      fun _ => Consult.Beside (·.gate) gate made := by
    refine Consult.update_ensures fun expert => ?_
    unfold fade
    split <;> rfl
  rw [speak_eq]
  refine given.bind fun said => Step.Ensures.given (fun _ k => k.1) fun spoke => ?_
  exact (faded.of_imp fun _ k => k.2).bind fun _ => .pure fun _ k => ⟨spoke, k⟩

/-- Neither does the region of the state. -/
theorem RegionalExpert.deliberate_observes (h : d.WellFormed) (new : made.New d) :
    Step.Ensures (Consult.Beside (·.gate) gate made) (deliberate (γ := γ) state action) fun said both =>
      ∃ stakes, made.stakes? state action = some stakes ∧
        said.isSome = (gate.observe stakes.1 stakes.2).1 ∧
        Consult.Beside (·.gate) (gate.observe stakes.1 stakes.2).2 made both := by
  rw [deliberate_eq]
  exact Consult.attend_observes h new (fun _ _ _ => rfl)
    (Consult.given_ensures (advise_steady (fun _ _ => rfl) state))

end Experts

namespace Expert

/-! ## Whole runs -/

/-- What comes up to an expert: it is asked for advice, or a trial to deliberate on; or others put a question
to the oracle that it shares with them. -/
inductive Turn (α : Type) where
  | advise (state : Assignment)
  | deliberate (trial : Trial α)
  | beside (question : Oracle.Question)

/-- The state and the action of a turn that is a trial. -/
def Turn.taken? : Turn α → Option (Assignment × Assignment)
  | .advise _ => none
  | .deliberate trial => some (trial.state, trial.action)
  | .beside _ => none

/-- The states and actions of the trials. -/
def taken (turns : List (Turn α)) : List (Assignment × Assignment) := turns.filterMap Turn.taken?

section Runs

variable [RandomSource γ]

/-- Whether an expert speaks in a turn, if it is a trial. What it could not advise when it was asked, and what
others could not learn from the oracle, goes by. -/
def Turn.take : Turn α → Consult α (Expert α γ) (List Bool)
  | .advise state => fun both => (.ok [], (answer (Expert.advise state) both).2)
  | .deliberate trial => (fun said => [said.isSome]) <$> Expert.deliberate trial.state trial.action
  | .beside question => fun both => (.ok [], both.1, (answer question.ask both.2).2)

/-- Whether an expert speaks, trial by trial. -/
def disclosures : List (Turn α) → Consult α (Expert α γ) (List Bool)
  | [] => return []
  | turn :: rest => do
    let here ← turn.take
    return here ++ (← disclosures rest)

/-- An expert knows the optimal action, and discloses in some way, as it is made. -/
inductive Discloses (made : Oracle α) (disclosure : DisclosureConfig α) : Expert α γ → Prop
  | unreliable {config : ExpertConfig α} {seed : UInt64} {expert : UnreliableExpert α γ}
      (way : config.disclosure = disclosure) (built : UnreliableExpert.ofConfig config seed = .ok expert) :
      Discloses made disclosure (.unreliable expert)
  | regional {name : String} {reliabilities : List α} {regions : StateTable Nat} {seed : UInt64}
      {expert : RegionalExpert α γ}
      (built : RegionalExpert.ofRegions name reliabilities regions made.states disclosure seed =
        .ok expert) : Discloses made disclosure (.regional expert)

/-- An expert that knows the optimal action. -/
def Informed : Expert α γ → Prop
  | .unreliable _ => True
  | .regional _ => True
  | .sighted _ => False

/-- An expert that knows the optimal action and has a gate, beside an oracle that can be relied on. -/
structure Attends (made : Oracle α) (gate : Gate α) (both : Expert α γ × Oracle α) : Prop where
  informed : Informed both.1
  gate : both.1.gate = gate
  oracle : Oracle.Faithful made both.2

theorem Discloses.attends {disclosure : DisclosureConfig α} {expert : Expert α γ}
    (discloses : Discloses made disclosure expert) {oracle : Oracle α}
    (faithful : Oracle.Faithful made oracle) : Attends made (.start disclosure) (expert, oracle) := by
  cases discloses with
  | unreliable way built =>
    unfold UnreliableExpert.ofConfig at built
    split at built
    · cases built
    · cases built
      exact ⟨trivial, congrArg Gate.start way, faithful⟩
  | regional built =>
    unfold RegionalExpert.ofRegions at built
    simp only at built
    split at built
    · cases built
    · cases built
      exact ⟨trivial, rfl, faithful⟩

/-- Advice that is asked for leaves the gate alone, whether it can be given or not. -/
theorem advise_attends (state : Assignment) :
    Step.Keeps (Step.Retains (Attends (γ := γ) made gate)) (advise state) := by
  rintro ⟨expert, oracle⟩ ⟨informed, rfl, faithful⟩
  cases expert with
  | unreliable expert =>
    have steady : Consult.Steady (Step.Same UnreliableExpert.gate) made _ _ :=
      UnreliableExpert.advise_steady (fun _ _ => rfl) state (expert, oracle)
    exact ⟨trivial, steady.expert, steady.oracle faithful⟩
  | regional expert =>
    have steady : Consult.Steady (Step.Same RegionalExpert.gate) made _ _ :=
      RegionalExpert.advise_steady (fun _ _ => rfl) state (expert, oracle)
    exact ⟨trivial, steady.expert, steady.oracle faithful⟩
  | sighted => exact informed.elim

/-- An expert speaks about a trial exactly if the stakes open its gate. -/
theorem deliberate_observes (h : d.WellFormed) (new : made.New d) :
    Step.Ensures (Attends (γ := γ) made gate) (deliberate state action) fun said both =>
      ∃ stakes, made.stakes? state action = some stakes ∧
        said.isSome = (gate.observe stakes.1 stakes.2).1 ∧
        Attends made (gate.observe stakes.1 stakes.2).2 both := by
  refine Step.Ensures.read_bind fun ⟨expert, oracle⟩ attends => ?_
  cases expert with
  | unreliable expert =>
    exact lift_ensures (UnreliableExpert.deliberate_observes h new) (fun _ k => ⟨attends.gate, k.oracle⟩)
      fun _ _ ⟨stakes, found, spoke, seen, faithful⟩ => ⟨stakes, found, spoke, trivial, seen, faithful⟩
  | regional expert =>
    exact lift_ensures (RegionalExpert.deliberate_observes h new) (fun _ k => ⟨attends.gate, k.oracle⟩)
      fun _ _ ⟨stakes, found, spoke, seen, faithful⟩ => ⟨stakes, found, spoke, trivial, seen, faithful⟩
  | sighted => exact attends.informed.elim

/-- In some turns an expert with a gate spoke at the trials at which their stakes open the gate, and what has
become of the gate is what the stakes make of it. -/
def Observed (made : Oracle α) (gate : Gate α) (turns : List (Turn α)) (told : List Bool)
    (both : Expert α γ × Oracle α) : Prop :=
  ∃ stakes, (taken turns).mapM (fun trial => made.stakes? trial.1 trial.2) = some stakes ∧
    told = gate.answers stakes ∧ Attends made (gate.after stakes) both

theorem take_observes (h : d.WellFormed) (new : made.New d) (turn : Turn α) :
    Step.Ensures (Attends (γ := γ) made gate) turn.take (Observed made gate [turn]) := by
  cases turn with
  | advise state =>
    intro both attends here after ran
    cases ran
    exact ⟨[], rfl, rfl, advise_attends state both attends⟩
  | deliberate trial =>
    refine (deliberate_observes h new).map fun said both ⟨stakes, found, spoke, attends⟩ => ?_
    refine ⟨[stakes], ?_, congrArg ([·]) spoke, attends⟩
    show ([(trial.state, trial.action)].mapM fun trial => made.stakes? trial.1 trial.2) = _
    rw [List.mapM_cons, found]
    rfl
  | beside question =>
    intro both attends here after ran
    cases ran
    exact ⟨[], rfl, rfl, attends.informed, attends.gate, question.retains h new both.2 attends.oracle⟩

/-- An expert speaks at the trials at which the stakes open its gate. -/
theorem disclosures_observe (h : d.WellFormed) (new : made.New d) (turns : List (Turn α)) (gate : Gate α) :
    Step.Ensures (Attends (γ := γ) made gate) (disclosures turns) (Observed made gate turns) := by
  induction turns generalizing gate with
  | nil => exact Step.Ensures.pure fun _ attends => ⟨[], rfl, rfl, attends⟩
  | cons turn rest ih =>
    rintro both attends told after ran
    obtain ⟨here, between, first, ran⟩ := answer_bind_ok.1 ran
    obtain ⟨later, last, others, ran⟩ := answer_bind_ok.1 ran
    cases ran
    obtain ⟨stakes, found, rfl, attends⟩ := take_observes h new turn both attends here between first
    obtain ⟨more, found', rfl, attends⟩ := ih _ between attends later after others
    refine ⟨stakes ++ more, ?_, (gate.answers_append stakes more).symm, by rwa [Gate.after_append]⟩
    rw [← List.singleton_append, taken, List.filterMap_append, List.mapM_append, ← taken, ← taken,
      found, found']
    rfl

end Runs

/-- Two experts that know the optimal action and disclose in the same way, of whatever kinds they are and
whatever their seeds, reliabilities and regions, speak at exactly the same trials, and their gates are equal,
as long as the trials have the same states and actions and the experts get through all of them; whatever the
rewards were, whatever advice was asked for in between, and whatever the oracle was asked before and on the
side. -/
theorem discloses_alike {decl : Declaration α} (built : decl.build = .ok d)
    (made_of : Oracle.ofDiagram d = .ok made) {disclosure : DisclosureConfig α} [RandomSource γ]
    [RandomSource δ] {first : Expert α γ} {second : Expert α δ} (one : Discloses made disclosure first)
    (two : Discloses made disclosure second) {oracle oracle' : Oracle α} (arises : made.Arises oracle)
    (arises' : made.Arises oracle') {turns turns' : List (Turn α)} (same : taken turns = taken turns')
    {told told' : List Bool} {after : Expert α γ × Oracle α} {after' : Expert α δ × Oracle α}
    (ran : answer (disclosures turns) (first, oracle) = (.ok told, after))
    (ran' : answer (disclosures turns') (second, oracle') = (.ok told', after')) :
    told = told' ∧ after.1.gate = after'.1.gate := by
  have h := Declaration.wellFormed_of_build built
  have new := Oracle.new_of_ofDiagram made_of
  obtain ⟨stakes, found, rfl, attends⟩ := disclosures_observe h new turns (.start disclosure) _
    (one.attends (arises.faithful h new)) _ _ ran
  obtain ⟨stakes', found', rfl, attends'⟩ := disclosures_observe h new turns' (.start disclosure) _
    (two.attends (arises'.faithful h new)) _ _ ran'
  obtain rfl : stakes = stakes' := Option.some_inj.1 (found.symm.trans (same ▸ found'))
  exact ⟨rfl, attends.gate.trans attends'.gate.symm⟩

/-- To speak every other time at most, and only if half a point is lost each time. -/
def sparing : DisclosureConfig Rat := ⟨2, 1/2⟩

/-- One who knows less and less. -/
def scout : UnreliableExpert Rat Tally :=
  (UnreliableExpert.ofConfig ⟨some "scout", 1/2, sparing, some (1/2)⟩ 3).toOption.get (by decide +kernel)

/-- One who is always right in the rain. -/
def ranger : RegionalExpert Rat Still :=
  (RegionalExpert.ofRegions "ranger" [1/2, 1] ((StateTable.replicate outingOracle.states 0).setAt 1 1)
    outingOracle.states sparing 4).toOption.get (by decide +kernel)

/-- To the park in a coat, twice along the street without one, and to the park again. -/
def scoutDays : List (Turn Rat) :=
  [.deliberate ⟨rain, dryPark, 2⟩, .deliberate ⟨rain, street, 0⟩, .advise rain,
    .deliberate ⟨rain, street, 0⟩, .deliberate ⟨rain, dryPark, 2⟩]

/-- The same days with other rewards, while someone asks about a name that is not in the diagram. -/
def rangerDays : List (Turn Rat) :=
  [.advise Oracle.windyRain, .deliberate ⟨rain, dryPark, 5⟩, .deliberate ⟨rain, street, 1⟩,
    .deliberate ⟨rain, street, 3⟩, .beside (.expectedUtility Oracle.windyRain street),
    .deliberate ⟨rain, dryPark, 0⟩]

/-- Both speak on the second day and on the last. -/
theorem discloses_alike_scout : ∃ scouted ranged,
    answer (disclosures scoutDays) (.unreliable scout, outingOracle) = (.ok [false, true, false, true], scouted) ∧
    answer (disclosures rangerDays) (.regional ranger, (answer (Oracle.act rain) outingOracle).2) =
      (.ok [false, true, false, true], ranged) ∧
    scouted.1.gate = ranged.1.gate := by
  have scout_of : Discloses outingOracle sparing (.unreliable scout) := .unreliable rfl (eq_ok_get _)
  have ranger_of : Discloses outingOracle sparing (.regional ranger) := .regional (eq_ok_get _)
  obtain ⟨told, ran⟩ : ∃ told, (answer (disclosures rangerDays)
      (.regional ranger, (answer (Oracle.act rain) outingOracle).2)).1 = .ok told :=
    ⟨_, eq_ok_get (by decide +kernel)⟩
  have scouted : (answer (disclosures scoutDays) (.unreliable scout, outingOracle)).1.toOption =
      some [false, true, false, true] := by decide +kernel
  have same : taken scoutDays = taken rangerDays := rfl
  have alike := discloses_alike build_outing made_outing scout_of ranger_of .made (.acted rain .made) same
    (Prod.ext (toOption_eq_some.1 scouted) rfl) (Prod.ext ran rfl)
  exact ⟨_, _, Prod.ext (toOption_eq_some.1 scouted) rfl, Prod.ext (alike.1 ▸ ran) rfl, alike.2⟩

end Expert

end Counsel
