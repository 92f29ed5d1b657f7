/-
Experts that are always right and experts that never are. What an expert advises is drawn around the optimal
action with the reliability that it has then (`UnreliableExpert.answer_advise`), and a property of the
reliability that fading keeps is kept by all that an expert is asked for (`Expert.Reached.lasts`). So an
expert of reliability one that does not fade names the optimal action whenever it names any, and one of
reliability zero never does, over any number of calls (`Expert.New.advice_of_reached`).
-/
import Counsel.Proofs.Expert.Disclosure
import Counsel.Proofs.Laws

namespace Counsel

open Outcome

variable {α γ κ ι : Type} [Scalar α] {d : Diagram α} {made : Oracle α} {state action advice : Assignment}

/-! ## What is advised -/

namespace Consult

/-- Beside an oracle that can be relied on, the action that is named is drawn around the one that is computed
from the solution. -/
theorem answer_name {draw : Layout → Assignment → κ → Except LayoutError Assignment × κ} {oracle : Oracle α}
    (faithful : Oracle.Faithful made oracle) (state : Assignment) (expert : κ) :
    (answer (name state draw) (expert, oracle)).1 = (do
      let optimal ← (made.computeAction state).mapError Error.model
      (draw made.actions optimal expert).1.mapError Error.layout) := by
  obtain ⟨told, kept⟩ := faithful.answer_act state
  rw [name, answer_bind, ask, Step.answer_within, told]
  rcases made.computeAction state with e | optimal
  · rfl
  · show (answer (Step.ofLayout (draw (answer (Oracle.act state) oracle).2.actions optimal expert).1) _).1 = _
    rw [Step.answer_ofLayout, kept.actions]
    rfl

end Consult

variable [RandomSource γ]

/-- What is advised in a state with a reliability, as a source draws. -/
def Oracle.drawn (made : Oracle α) (state : Assignment) (r : α) (source : γ) : Except Error Assignment := do
  let optimal ← (made.computeAction state).mapError Error.model
  (noisyAdvice source made.actions optimal r).1.mapError Error.layout

theorem UnreliableExpert.answer_advise {oracle : Oracle α} (faithful : Oracle.Faithful made oracle)
    (state : Assignment) (expert : UnreliableExpert α γ) :
    (answer (advise state) (expert, oracle)).1 = made.drawn state expert.reliability expert.source := by
  rw [advise_eq]
  exact Consult.answer_name faithful state expert

theorem RegionalExpert.answer_advise {oracle : Oracle α} (faithful : Oracle.Faithful made oracle)
    {expert : RegionalExpert α γ} {r : α} (placed : expert.reliabilityIn state = .ok r) :
    (answer (advise state) (expert, oracle)).1 = made.drawn state r expert.source := by
  rw [advise_eq, answer_get_bind, placed]
  exact Consult.answer_name faithful state expert

/-- Advice that is given is fair if what would be advised is. -/
theorem Consult.given_fair {view : κ → ι} {seen : ι} {step : Consult α κ Assignment} {fair : Assignment → Prop}
    (h : Step.Ensures (Beside view seen made) step fun advice _ => fair advice) (opened : Bool) :
    Step.Ensures (Beside view seen made) (if opened then some <$> step else pure none)
      fun said _ => ∀ advice ∈ said, fair advice := by
  split
  · exact h.map fun _ _ k _ said => Option.mem_some.1 said ▸ k
  · exact .pure fun _ _ _ said => nomatch said

/-- After a trial an expert advises as it would have advised then, with the reliability that it had then. -/
theorem UnreliableExpert.deliberate_drawn (h : d.WellFormed) (new : made.New d) {r : α} :
    Step.Ensures (Consult.Beside (·.reliability) r made) (deliberate (γ := γ) state action) fun said _ =>
      ∀ advice ∈ said, ∃ source : γ, made.drawn state r source = .ok advice := by
  rw [deliberate_eq]
  refine Consult.attend_ensures h new (fun _ _ _ => rfl) fun opened => ?_
  have drawn : Step.Ensures (Consult.Beside (·.reliability) r made) (advise (γ := γ) state) fun advice _ =>
      ∃ source : γ, made.drawn state r source = .ok advice := by
    rintro ⟨expert, oracle⟩ ⟨rfl, faithful⟩ advice after ran
    exact ⟨expert.source, (answer_advise faithful state expert).symm.trans (congrArg Prod.fst ran)⟩
  rw [speak_eq]
  refine (Consult.given_fair drawn opened).bind fun said => Step.Ensures.given (fun _ k => k) fun fair => ?_
  rintro both - said' after ran
  cases ran
  exact fair

theorem RegionalExpert.deliberate_drawn (h : d.WellFormed) (new : made.New d) {r : α} :
    Step.Ensures (Consult.Beside (·.reliabilityIn state) (.ok r) made) (deliberate (γ := γ) state action)
      fun said _ => ∀ advice ∈ said, ∃ source : γ, made.drawn state r source = .ok advice := by
  rw [deliberate_eq]
  refine Consult.attend_ensures h new (fun _ _ _ => rfl) (Consult.given_fair ?_)
  rintro ⟨expert, oracle⟩ ⟨placed, faithful⟩ advice after ran
  exact ⟨expert.source, (answer_advise faithful placed).symm.trans (congrArg Prod.fst ran)⟩

/-! ## Right and wrong advice -/

section Chances

variable [LawfulChances α] {actions : Layout} {optimal : Assignment} {r : α}

/-- With a reliability of one nothing but the optimal action is drawn. -/
theorem noisyAdvice_certain (certain : 1 ≤ r) (source : γ) (actions : Layout) (optimal : Assignment) :
    (noisyAdvice source actions optimal r).1 = .ok optimal := by
  rcases noisyAdvice_cases source actions optimal r with ⟨-, told⟩ | ⟨above, -⟩
  · exact congrArg Prod.fst told
  · exact absurd (LawfulChances.fraction_lt source certain) above

/-- With a reliability of zero the optimal action is not drawn, unless there is no other. -/
theorem noisyAdvice_ne (none : r ≤ 0) (distinct : actions.Distinct) (two : 2 ≤ actions.size) {source : γ}
    (drawn : (noisyAdvice source actions optimal r).1 = .ok advice) : advice ≠ optimal := by
  rcases noisyAdvice_cases source actions optimal r with
    ⟨below | few, -⟩ | ⟨-, -, ⟨e, -, told⟩ | ⟨best, found, lt, told⟩⟩
  · exact absurd below (LawfulChances.not_fraction_lt source none)
  · exact absurd two few.not_ge
  · rw [told] at drawn
    cases drawn
  · rw [told] at drawn
    cases drawn
    exact Layout.other_ne distinct found lt

/-- What is drawn is the optimal action if the reliability is one, and another if it is zero. -/
theorem Oracle.right_of_drawn (h : d.WellFormed) (new : made.New d) {source : γ}
    (drawn : made.drawn state r source = .ok advice) : ∃ optimal, made.computeAction state = .ok optimal ∧
      (1 ≤ r → advice = optimal) ∧ (r ≤ 0 → 2 ≤ made.actions.size → advice ≠ optimal) := by
  obtain ⟨optimal, computed, drawn⟩ := bind_eq_ok.1 drawn
  rw [mapError_eq_ok] at computed drawn
  refine ⟨optimal, computed, fun certain => ?_, fun none two => ?_⟩
  · exact Except.ok.inj (drawn.symm.trans (noisyAdvice_certain certain source made.actions optimal))
  · exact noisyAdvice_ne none (new.actions.distinct h) two drawn

end Chances

/-- In a complete state something is drawn. -/
theorem Oracle.exists_drawn (h : d.WellFormed) (new : made.New d) (reads : made.states.Reads state) (r : α)
    (source : γ) : ∃ advice, made.drawn state r source = .ok advice := by
  obtain ⟨_, optimal, -, computed, optimal_of, -⟩ := new.exists_computeAction h reads
  obtain ⟨advice, drawn, -⟩ := noisyAdvice_eq_ok h new.actions optimal_of source r
  exact ⟨advice, bind_eq_ok.2 ⟨optimal, mapError_eq_ok.2 computed, mapError_eq_ok.2 drawn⟩⟩

namespace Expert

/-! ## Whole runs -/

/-- The probability with which an expert that knows the optimal action names it in a state. -/
def reliabilityIn (state : Assignment) : Expert α γ → Option α
  | .unreliable expert => some expert.reliability
  | .regional expert => (expert.reliabilityIn state).toOption
  | .sighted _ => none

/-- The reliability of an expert does not fade. -/
def Unfading : Expert α γ → Prop
  | .unreliable expert => expert.degradeFactor = none
  | .regional _ => True
  | .sighted _ => True

/-- An expert advises an action in a state: when it is asked, or after a trial. -/
def Advises (both : Expert α γ × Oracle α) (state advice : Assignment) : Prop :=
  (answer (advise state) both).1 = .ok advice ∨
    ∃ action, (answer (deliberate state action) both).1 = .ok (some advice)

/-- What becomes of an expert and its oracle by any number of calls to the expert, if others put questions to
the oracle in between. -/
inductive Reached (start : Expert α γ × Oracle α) : Expert α γ × Oracle α → Prop
  | start : Reached start start
  | advised {both : Expert α γ × Oracle α} (state : Assignment) (reached : Reached start both) :
      Reached start (answer (advise state) both).2
  | deliberated {both : Expert α γ × Oracle α} (state action : Assignment) (reached : Reached start both) :
      Reached start (answer (deliberate state action) both).2
  | reset {expert : Expert α γ} {oracle : Oracle α} (reached : Reached start (expert, oracle)) :
      Reached start (expert.reset, oracle)
  | beside {expert : Expert α γ} {oracle : Oracle α} (question : Oracle.Question)
      (reached : Reached start (expert, oracle)) : Reached start (expert, (answer question.ask oracle).2)

/-- The reliability of an expert in a state has a property, which neither fading nor a reset takes away. -/
def Lasting (P : α → Prop) (state : Assignment) : Expert α γ → Prop
  | .unreliable expert => P expert.reliability ∧ P expert.initialReliability ∧
      ∀ factor ∈ expert.degradeFactor, ∀ r, P r → P (r * factor)
  | .regional expert => ∃ r, expert.reliabilityIn state = .ok r ∧ P r
  | .sighted _ => False

/-- An expert whose reliability in a state has a lasting property, beside an oracle that can be relied on. -/
structure Lasts (P : α → Prop) (state : Assignment) (made : Oracle α) (both : Expert α γ × Oracle α) :
    Prop where
  lasting : Lasting P state both.1
  oracle : Oracle.Faithful made both.2

variable {P : α → Prop} {r : α}

omit [RandomSource γ] in
theorem Lasting.exists_reliability {expert : Expert α γ} (lasting : Lasting P state expert) :
    ∃ r, expert.reliabilityIn state = some r ∧ P r := by
  cases expert with
  | unreliable expert => exact ⟨expert.reliability, rfl, lasting.1⟩
  | regional expert =>
    obtain ⟨r, placed, holds⟩ := lasting
    exact ⟨r, toOption_eq_some.2 placed, holds⟩
  | sighted => exact lasting.elim

theorem Lasting.reset {expert : Expert α γ} (lasting : Lasting P state expert) :
    Lasting P state expert.reset := by
  cases expert with
  | unreliable => exact ⟨lasting.2.1, lasting.2.1, lasting.2.2⟩
  | regional => exact lasting
  | sighted => exact lasting

theorem advise_lasts (asked : Assignment) :
    Step.Keeps (Step.Retains (Lasts (γ := γ) P state made)) (advise asked) := by
  rintro ⟨expert, oracle⟩ ⟨lasting, faithful⟩
  cases expert with
  | unreliable expert =>
    have steady : Consult.Steady (Step.Retains fun expert => Lasting P state (.unreliable expert)) made _ _ :=
      UnreliableExpert.advise_steady (fun _ _ k => k) asked (expert, oracle)
    exact ⟨steady.expert lasting, steady.oracle faithful⟩
  | regional expert =>
    have steady : Consult.Steady (Step.Retains fun expert => Lasting P state (.regional expert)) made _ _ :=
      RegionalExpert.advise_steady (fun _ _ k => k) asked (expert, oracle)
    exact ⟨steady.expert lasting, steady.oracle faithful⟩
  | sighted => exact lasting.elim

omit [RandomSource γ] in
/-- Fading does not take a lasting property away. -/
theorem Lasting.fade {expert : UnreliableExpert α γ} (lasting : Lasting P state (.unreliable expert)) :
    Lasting P state (.unreliable expert.fade.2) := by
  unfold UnreliableExpert.fade
  split
  next => exact lasting
  next factor fades => exact ⟨lasting.2.2 factor fades _ lasting.1, lasting.2⟩

theorem deliberate_lasts (h : d.WellFormed) (new : made.New d) (asked action : Assignment) :
    Step.Keeps (Step.Retains (Lasts (γ := γ) P state made)) (deliberate asked action) := by
  rintro ⟨expert, oracle⟩ ⟨lasting, faithful⟩
  cases expert with
  | unreliable expert =>
    have steady : Consult.Steady (Step.Retains fun expert => Lasting P state (.unreliable expert)) made _ _ :=
      UnreliableExpert.deliberate_steady h new (fun _ _ k => k) (fun _ _ _ k => k) (fun _ => Lasting.fade)
        asked action (expert, oracle)
    exact ⟨steady.expert lasting, steady.oracle faithful⟩
  | regional expert =>
    have steady : Consult.Steady (Step.Retains fun expert => Lasting P state (.regional expert)) made _ _ :=
      RegionalExpert.deliberate_steady h new (fun _ _ k => k) (fun _ _ _ k => k) asked action (expert, oracle)
    exact ⟨steady.expert lasting, steady.oracle faithful⟩
  | sighted => exact lasting.elim

/-- Whatever an expert is asked for, and whether it goes well or not, a lasting property lasts. -/
theorem Reached.lasts (h : d.WellFormed) (new : made.New d) {start both : Expert α γ × Oracle α}
    (reached : Reached start both) (lasts : Lasts P state made start) : Lasts P state made both := by
  induction reached with
  | start => exact lasts
  | advised asked _ ih => exact advise_lasts asked _ ih
  | deliberated asked action _ ih => exact deliberate_lasts h new asked action _ ih
  | reset _ ih => exact ⟨ih.lasting.reset, ih.oracle⟩
  | beside question _ ih => exact ⟨ih.lasting, question.retains h new _ ih.oracle⟩

/-- What an expert would advise is drawn with the reliability that it has then. -/
theorem advise_drawn {both : Expert α γ × Oracle α} (faithful : Oracle.Faithful made both.2)
    (reliability : both.1.reliabilityIn state = some r) :
    ∃ source : γ, (answer (advise state) both).1 = made.drawn state r source := by
  obtain ⟨expert, oracle⟩ := both
  cases expert with
  | unreliable expert =>
    cases reliability
    exact ⟨expert.source, UnreliableExpert.answer_advise faithful state expert⟩
  | regional expert =>
    exact ⟨expert.source, RegionalExpert.answer_advise faithful (toOption_eq_some.1 reliability)⟩
  | sighted => cases reliability

theorem deliberate_drawn (h : d.WellFormed) (new : made.New d) {both : Expert α γ × Oracle α}
    (faithful : Oracle.Faithful made both.2) (reliability : both.1.reliabilityIn state = some r)
    (said : (answer (deliberate state action) both).1 = .ok (some advice)) :
    ∃ source : γ, made.drawn state r source = .ok advice := by
  obtain ⟨expert, oracle⟩ := both
  cases expert with
  | unreliable expert =>
    cases reliability
    exact UnreliableExpert.deliberate_drawn h new (expert, oracle) ⟨rfl, faithful⟩ _ _ (Prod.ext said rfl)
      advice rfl
  | regional expert =>
    exact RegionalExpert.deliberate_drawn h new (expert, oracle) ⟨toOption_eq_some.1 reliability, faithful⟩ _ _
      (Prod.ext said rfl) advice rfl
  | sighted => cases reliability

theorem Advises.drawn (h : d.WellFormed) (new : made.New d) {both : Expert α γ × Oracle α}
    (faithful : Oracle.Faithful made both.2) (reliability : both.1.reliabilityIn state = some r)
    (advises : Advises both state advice) : ∃ source : γ, made.drawn state r source = .ok advice := by
  rcases advises with told | ⟨action, said⟩
  · obtain ⟨source, drawn⟩ := advise_drawn faithful reliability
    exact ⟨source, drawn.symm.trans told⟩
  · exact deliberate_drawn h new faithful reliability said

/-! ## Experts as they are made -/

omit [RandomSource γ] in
/-- An expert that has a reliability in a state always has one. -/
theorem lasting_of_known {expert : Expert α γ} (known : expert.reliabilityIn state = some r) :
    Lasting (fun _ => True) state expert := by
  cases expert with
  | unreliable => exact ⟨trivial, trivial, fun _ _ _ _ => trivial⟩
  | regional => exact ⟨r, toOption_eq_some.1 known, trivial⟩
  | sighted => cases known

theorem unreliable_of_ofConfig {config : ExpertConfig α} {seed : UInt64} {expert : UnreliableExpert α γ}
    (built : UnreliableExpert.ofConfig config seed = .ok expert) : config.Valid ∧
      expert.reliability = config.reliability ∧ expert.initialReliability = config.reliability ∧
      expert.degradeFactor = config.degradeFactor := by
  unfold UnreliableExpert.ofConfig at built
  split at built
  next => cases built
  next passed =>
    cases built
    exact ⟨Check.expert_eq_ok.1 passed, rfl, rfl, rfl⟩

/-- An expert that does not fade keeps the reliability that it was made with. -/
theorem New.lasting_of_unfading {expert : Expert α γ} (new : New made expert) (unfading : expert.Unfading)
    (known : expert.reliabilityIn state = some r) : Lasting (· = r) state expert := by
  cases new with
  | unreliable built =>
    obtain ⟨-, now, first, -⟩ := unreliable_of_ofConfig built
    cases known
    refine ⟨rfl, first.trans now.symm, fun factor fades => ?_⟩
    cases (show _ = none from unfading).symm.trans fades
  | regional => exact ⟨r, toOption_eq_some.1 known, rfl⟩
  | sighted => cases known

/-- An expert that was made with no reliability never has any, whether it fades or not. -/
theorem New.lasting_of_none [LawfulChances α] {expert : Expert α γ} (new : New made expert)
    (known : expert.reliabilityIn state = some r) (none : r ≤ 0) :
    ∃ P : α → Prop, (∀ x, P x → x ≤ 0) ∧ Lasting P state expert := by
  cases new with
  | unreliable built =>
    obtain ⟨valid, now, first, fades⟩ := unreliable_of_ofConfig built
    cases known
    rw [now] at none
    refine ⟨fun x => 0 ≤ x ∧ x ≤ 0, fun _ k => k.2, ?_, ?_, fun factor mem x k => ?_⟩
    · exact now ▸ ⟨valid.reliability.1, none⟩
    · exact first ▸ ⟨valid.reliability.1, none⟩
    · obtain ⟨pos, part⟩ := valid.degradeFactor factor (fades ▸ mem)
      exact LawfulChances.mul_none k.1 k.2 pos part
  | regional => exact ⟨(· = r), fun _ same => same ▸ none, r, toOption_eq_some.1 known, rfl⟩
  | sighted => cases known

/-- After any number of calls an expert that was made with a reliability of one, and does not fade, advises the
optimal action if it advises any, and one that was made with none advises another. -/
theorem New.advice_of_reached [LawfulChances α] (h : d.WellFormed) (new : made.New d) {expert : Expert α γ}
    (fresh : New made expert) {oracle : Oracle α} (faithful : Oracle.Faithful made oracle)
    {both : Expert α γ × Oracle α} (reached : Reached (expert, oracle) both)
    (known : expert.reliabilityIn state = some r) :
    (made.states.Reads state → ∃ advice, (answer (advise state) both).1 = .ok advice) ∧
      ∀ advice, Advises both state advice → ∃ optimal, made.computeAction state = .ok optimal ∧
        (1 ≤ r → expert.Unfading → advice = optimal) ∧
        (r ≤ 0 → 2 ≤ made.actions.size → advice ≠ optimal) := by
  have able : Lasts (fun _ => True) state made both :=
    reached.lasts h new ⟨lasting_of_known known, faithful⟩
  obtain ⟨r', now, -⟩ := able.lasting.exists_reliability
  refine ⟨fun reads => ?_, fun advice advises => ?_⟩
  · obtain ⟨source, told⟩ := advise_drawn able.oracle now
    obtain ⟨advice, drawn⟩ := Oracle.exists_drawn h new reads r' source
    exact ⟨advice, told.trans drawn⟩
  · obtain ⟨source, drawn⟩ := advises.drawn h new able.oracle now
    obtain ⟨optimal, computed, certain, wrong⟩ := Oracle.right_of_drawn h new drawn
    refine ⟨optimal, computed, fun one unfading => certain ?_, fun none two => wrong ?_ two⟩
    · -- the reliability is still the one it was made with
      have lasts := reached.lasts h new ⟨fresh.lasting_of_unfading unfading known, faithful⟩
      obtain ⟨x, now', rfl⟩ := lasts.lasting.exists_reliability
      cases now.symm.trans now'
      exact one
    · -- the reliability may have faded, but not from nothing to something
      obtain ⟨P, worthless, lasting⟩ := fresh.lasting_of_none known none
      obtain ⟨x, now', holds⟩ := (reached.lasts h new ⟨lasting, faithful⟩).lasting.exists_reliability
      cases now.symm.trans now'
      exact worthless r' holds

/-- Advice that is drawn with a reliability is the optimal action exactly if the first draw is below the
reliability; otherwise the second draw picks one of the other joint actions, and each of them has one pick. So
whatever an expert that was made and its oracle were asked before, as often as they were, the expert advises
an action in every complete state, which is the optimal one if its reliability there is one and does not fade,
and is another if its reliability there is zero and there are others. -/
theorem advice_by_reliability [LawfulChances α] :
    (∀ {actions : Layout} {optimal : Assignment}, actions.Distinct → 2 ≤ actions.size →
      optimal ∈ actions.assignments → ∃ other : Nat → Assignment,
        Set.BijOn other (Set.Iio (actions.size - 1)) ({a | a ∈ actions.assignments} \ {optimal}) ∧
        ∀ {γ : Type} [RandomSource γ] (source : γ) (reliability : α),
          let (u, rest) := (RandomSource.fraction source : α × γ)
          let (pick, last) := RandomSource.below (actions.size - 1) rest
          pick < actions.size - 1 ∧
            noisyAdvice source actions optimal reliability =
              (if u < reliability then (.ok optimal, rest) else (.ok (other pick), last)) ∧
            ((noisyAdvice source actions optimal reliability).1 = .ok optimal ↔ u < reliability)) ∧
    ∀ {decl : Declaration α} {d : Diagram α} {made : Oracle α}, decl.build = .ok d →
      Oracle.ofDiagram d = .ok made → ∀ {γ : Type} [RandomSource γ] {expert : Expert α γ}, New made expert →
      ∀ {oracle : Oracle α}, made.Arises oracle → ∀ {both : Expert α γ × Oracle α},
      Reached (expert, oracle) both → ∀ {state : Assignment} {r : α}, expert.reliabilityIn state = some r →
        (made.states.Reads state → ∃ advice, (answer (advise state) both).1 = .ok advice) ∧
        ∀ advice, Advises both state advice → ∃ optimal, made.computeAction state = .ok optimal ∧
          (1 ≤ r → expert.Unfading → advice = optimal) ∧
          (r ≤ 0 → 2 ≤ made.actions.size → advice ≠ optimal) := by
  refine ⟨fun distinct two mem => ?_, fun built made_of _ _ _ fresh _ arises _ reached _ _ known => ?_⟩
  · obtain ⟨other, others, drawn⟩ := noisyAdvice_eq_other distinct two mem
    exact ⟨other, others, drawn⟩
  · have h := Declaration.wellFormed_of_build built
    have new := Oracle.new_of_ofDiagram made_of
    exact fresh.advice_of_reached h new (arises.faithful h new) reached known

/-- One who is always right. -/
def seer : UnreliableExpert Rat Tally :=
  (UnreliableExpert.ofConfig ⟨some "seer", 1, .always, none⟩ 3).toOption.get (by decide +kernel)

/-- One who is never right, and becomes no worse. -/
def fool : UnreliableExpert Rat Tally :=
  (UnreliableExpert.ofConfig ⟨some "fool", 0, .always, some (1/2)⟩ 5).toOption.get (by decide +kernel)

/-- After a trial in the rain, a question on the side and a reset, the one advises the park in a coat, and the
other does not. Of the three other actions the street without a coat has the second pick. -/
theorem advice_by_reliability_outing :
    let later (expert : Expert Rat Tally) : Expert Rat Tally × Oracle Rat :=
      let (_, expert, oracle) := answer (deliberate rain street) (expert, outingOracle)
      (expert.reset, (answer (Oracle.Question.act rain).ask oracle).2)
    (∃ other, Set.BijOn other (Set.Iio 3) ({a | a ∈ outingOracle.actions.assignments} \ {dryPark}) ∧
      other 1 = street) ∧
    (answer (advise rain) (later (.unreliable seer))).1 = .ok dryPark ∧
    ∃ advice, (answer (advise rain) (later (.unreliable fool))).1 = .ok advice ∧ advice ≠ dryPark := by
  intro later
  obtain ⟨draws, advises⟩ := advice_by_reliability (α := Rat)
  have reached (expert : Expert Rat Tally) : Reached (expert, outingOracle) (later expert) :=
    .beside (.act rain) (.reset (.deliberated rain street .start))
  have reads : outingOracle.states.Reads rain := ⟨1, by decide +kernel⟩
  have best : outingOracle.computeAction rain = .ok dryPark := toOption_eq_some.1 (by decide +kernel)
  have size : outingOracle.actions.size = 4 := by decide +kernel
  refine ⟨?_, ?_, ?_⟩
  · have distinct : outingOracle.actions.Distinct := by
      unfold Layout.Distinct
      decide +kernel
    have listed : dryPark ∈ outingOracle.actions.assignments := by decide +kernel
    obtain ⟨other, others, drawn⟩ := draws distinct (size ▸ by decide) listed
    rw [size] at others
    obtain ⟨-, told, -⟩ := drawn (⟨6⟩ : Tally) (1 / 2)
    have named : (noisyAdvice (⟨6⟩ : Tally) outingOracle.actions dryPark (1 / 2 : Rat)).1 = .ok street :=
      toOption_eq_some.1 (by decide +kernel)
    have above : ¬ (RandomSource.fraction (⟨6⟩ : Tally) : Rat × Tally).1 < 1 / 2 := by decide +kernel
    have picked := congrArg Prod.fst (told.trans (if_neg above))
    rw [size] at picked
    exact ⟨other, others, Except.ok.inj (picked.symm.trans named)⟩
  · have fresh : New outingOracle (.unreliable seer) := .unreliable (eq_ok_get _)
    have known : (Expert.unreliable seer).reliabilityIn rain = some seer.reliability := rfl
    obtain ⟨able, right⟩ := advises build_outing made_outing fresh .made (reached _) known
    obtain ⟨advice, told⟩ := able reads
    obtain ⟨optimal, computed, certain, -⟩ := right advice (.inl told)
    cases best.symm.trans computed
    exact certain (by decide +kernel) rfl ▸ told
  · have fresh : New outingOracle (.unreliable fool) := .unreliable (eq_ok_get _)
    have known : (Expert.unreliable fool).reliabilityIn rain = some fool.reliability := rfl
    obtain ⟨able, right⟩ := advises build_outing made_outing fresh .made (reached _) known
    obtain ⟨advice, told⟩ := able reads
    obtain ⟨optimal, computed, -, wrong⟩ := right advice (.inl told)
    cases best.symm.trans computed
    exact ⟨advice, told, wrong (by decide +kernel) (size ▸ by decide)⟩

end Expert

end Counsel
