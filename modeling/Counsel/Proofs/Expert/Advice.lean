/-
What experts of any kind, however they have come about, say of a possible state. They may fail to speak,
but what they advise is a joint action, and whatever they ask the oracle leaves it faithful
(`Expert.deliberate_ensures`). So the bundle of a panel names its experts and joint actions only
(`Panel.advise_ensures`).
-/
import Counsel.Proofs.Experiment.Experts
import Counsel.Proofs.Expert.Forgetting

namespace Counsel

open Outcome

variable {d : Diagram Rat} {γ : Type} [RandomSource γ] {made : Oracle Rat} {state action : Assignment}

/-! ## Questions to the oracle -/

namespace Oracle

/-- A faithful oracle names the joint action that is computed from the solution. -/
theorem act_computes (h : d.WellFormed) (new : made.New d) (state_of : d.Assigns .chance state) :
    Step.Yields (Faithful made) (act state) fun action oracle =>
      Faithful made oracle ∧ made.computeAction state = .ok action ∧ d.Assigns .decision action := by
  intro oracle faithful
  obtain ⟨slots, placed⟩ := state_of.exists_slotsOf h
  obtain ⟨action, computed, action_of, -⟩ := new.sound.exists_computeAction h state_of placed
  obtain ⟨told, after⟩ := faithful.act state
  have told := both_eq_iff.1 told
  rw [computed] at told
  exact ⟨action, _, Prod.ext (toOption_eq_some.1 told) rfl, after, computed, action_of⟩

end Oracle

namespace Consult

variable {κ β : Type} {id : κ → ExpertId} {name : ExpertId}

/-- What is drawn around an optimal action is a joint action. -/
theorem noisy_ensures (h : d.WellFormed) (new : made.New d) {optimal : Assignment}
    (optimal_of : d.Assigns .decision optimal) {change : κ → Except LayoutError Assignment × κ}
    (drawn : ∀ expert, id (change expert).2 = id expert ∧ ∃ (source : γ) (reliability : Rat),
      (change expert).1 = (noisyAdvice source made.actions optimal reliability).1) :
    Step.Ensures (Beside id name made) (update change >>= Step.ofLayout) fun advice both =>
      Beside id name made both ∧ d.Assigns .decision advice := by
  have joint : Step.Ensures (Beside id name made) (update change) fun result both =>
      Beside id name made both ∧ ∀ advice, result = .ok advice → d.Assigns .decision advice := by
    intro both beside result after ran
    obtain ⟨same, source, reliability, told⟩ := drawn both.1
    obtain ⟨advice, told', advice_of⟩ := noisyAdvice_eq_ok h new.actions optimal_of source reliability
    cases ran
    refine ⟨⟨same.trans beside.1, beside.2⟩, fun other told'' => ?_⟩
    cases (told.trans told').symm.trans told''
    exact advice_of
  exact joint.bind fun result => Step.Ensures.ofLayout fun advice told _ k => ⟨k.1, k.2 advice told⟩

/-- Advice that is given is a joint action if what would be advised is one. -/
theorem spoken_ensures {step : Consult Rat κ Assignment}
    (h : Step.Ensures (Beside id name made) step fun advice both =>
      Beside id name made both ∧ d.Assigns .decision advice) :
    Step.Ensures (Beside id name made) (some <$> step) fun advice both =>
      Beside id name made both ∧ ∀ a ∈ advice, d.Assigns .decision a :=
  h.map fun _ _ k => ⟨k.1, fun _ said => Option.mem_some.1 said ▸ k.2⟩

theorem silent_ensures : Step.Ensures (Beside id name made) (pure none) fun advice both =>
    Beside id name made both ∧ ∀ a ∈ advice, d.Assigns .decision a :=
  Step.Ensures.pure fun _ k => ⟨k, fun _ said => nomatch said⟩

/-- Whether or not an expert has spoken, what changes of it in the end is not its name. -/
theorem closing_ensures {change : κ → Unit × κ} (h : ∀ expert, id (change expert).2 = id expert)
    (advice : Option Assignment) :
    Step.Ensures (fun both => Beside id name made both ∧ ∀ a ∈ advice, d.Assigns .decision a)
      (update change >>= fun _ => pure advice)
      fun advice both => Beside id name made both ∧ ∀ a ∈ advice, d.Assigns .decision a := by
  refine Step.Ensures.given (fun _ k => k.2) fun advice_of => ?_
  exact ((update_ensures h).of_imp fun _ k => k.1).bind fun _ =>
    Step.Ensures.pure fun _ k => ⟨k, advice_of⟩

end Consult

/-! ## One expert -/

namespace UnreliableExpert

variable {name : ExpertId}

theorem advise_ensures (h : d.WellFormed) (new : made.New d) (state_of : d.Assigns .chance state) :
    Step.Ensures (Consult.Beside (·.id) name made) (advise (γ := γ) state) fun advice both =>
      Consult.Beside (·.id) name made both ∧ d.Assigns .decision advice := by
  refine (Consult.ask_ensures (Oracle.act_computes h new state_of).ensures).bind fun optimal => ?_
  refine Step.Ensures.read_bind fun both ⟨_, faithful, _, optimal_of⟩ => ?_
  dsimp only
  rw [faithful.actions]
  refine (Consult.noisy_ensures (γ := γ) h new optimal_of fun expert => ⟨?_, expert.source,
    expert.reliability, ?_⟩).of_imp fun _ k => ⟨k.1, k.2.1⟩
  · rfl
  · rfl

theorem deliberate_ensures (h : d.WellFormed) (new : made.New d) (state_of : d.Assigns .chance state) :
    Step.Ensures (Consult.Beside (·.id) name made) (deliberate (γ := γ) state action) fun advice both =>
      Consult.Beside (·.id) name made both ∧ ∀ a ∈ advice, d.Assigns .decision a := by
  rw [deliberate_eq]
  refine Consult.attend_ensures h new (fun _ _ _ => rfl) fun opened => ?_
  have kept : ∀ expert : UnreliableExpert Rat γ, (fade expert).2.id = expert.id := fun expert => by
    unfold fade
    split <;> rfl
  rw [speak_eq]
  refine Step.Ensures.bind ?_ (Consult.closing_ensures kept)
  split
  · exact Consult.spoken_ensures (advise_ensures h new state_of)
  · exact Consult.silent_ensures

end UnreliableExpert

namespace RegionalExpert

variable {name : ExpertId}

theorem advise_ensures (h : d.WellFormed) (new : made.New d) (state_of : d.Assigns .chance state) :
    Step.Ensures (Consult.Beside (·.id) name made) (advise (γ := γ) state) fun advice both =>
      Consult.Beside (·.id) name made both ∧ d.Assigns .decision advice := by
  refine Step.Ensures.read_bind fun both _ => ?_
  refine Step.Ensures.ofLayout_bind fun reliability _ => ?_
  refine (Consult.ask_ensures (Oracle.act_computes h new state_of).ensures).bind fun optimal => ?_
  refine Step.Ensures.read_bind fun both ⟨_, faithful, _, optimal_of⟩ => ?_
  dsimp only
  rw [faithful.actions]
  refine (Consult.noisy_ensures (γ := γ) h new optimal_of fun expert => ⟨?_, expert.source,
    reliability, ?_⟩).of_imp fun _ k => ⟨k.1, k.2.1⟩
  · rfl
  · rfl

theorem deliberate_ensures (h : d.WellFormed) (new : made.New d) (state_of : d.Assigns .chance state) :
    Step.Ensures (Consult.Beside (·.id) name made) (deliberate (γ := γ) state action) fun advice both =>
      Consult.Beside (·.id) name made both ∧ ∀ a ∈ advice, d.Assigns .decision a := by
  rw [deliberate_eq]
  refine Consult.attend_ensures h new (fun _ _ _ => rfl) fun opened => ?_
  rw [speak]
  split
  · exact Consult.spoken_ensures (advise_ensures h new state_of)
  · exact Consult.silent_ensures

end RegionalExpert

namespace SightedExpert

variable {name : ExpertId}

theorem value_ensures (h : d.WellFormed) (new : made.New d) :
    Step.Ensures (Consult.Beside (·.id) name made) (value state action) fun _ =>
      Consult.Beside (·.id) name made := by
  refine Step.Ensures.read_bind fun both _ => Step.Ensures.ofLayout_bind fun known _ => ?_
  cases known with
  | some known => exact Step.Ensures.pure fun _ k => k
  | none =>
    refine Step.Ensures.bind (Consult.ask_ensures (Oracle.expectedUtility_retains h new _ action).ensures)
      fun x => Step.Ensures.ofLayout_bind fun values _ => ?_
    exact Step.Ensures.bind (Consult.update_ensures fun _ => rfl) fun _ =>
      Step.Ensures.pure fun _ k => k

/-- A joint action has been found to be best so far. -/
def Found (d : Diagram Rat) (name : ExpertId) (made : Oracle Rat) (best : Option (Assignment × Rat))
    (both : SightedExpert Rat × Oracle Rat) : Prop :=
  Consult.Beside (·.id) name made both ∧ ∃ b, best = some b ∧ d.Assigns .decision b.1

theorem consider_ensures (h : d.WellFormed) (new : made.New d) (action_of : d.Assigns .decision action)
    {best : Option (Assignment × Rat)} (best_of : ∀ b ∈ best, d.Assigns .decision b.1) :
    Step.Ensures (Consult.Beside (·.id) name made)
      (do return betterAction best action (← value state action)) (Found d name made) := by
  refine (value_ensures h new).bind fun x => Step.Ensures.pure fun _ k => ⟨k, ?_⟩
  cases best with
  | none => exact ⟨_, rfl, action_of⟩
  | some b =>
    rw [betterAction]
    split
    · exact ⟨_, rfl, action_of⟩
    · exact ⟨b, rfl, best_of b rfl⟩

/-- The best action is one of the joint actions, of which there is at least one. -/
theorem best_ensures (h : d.WellFormed) (new : made.New d) (state : Assignment) :
    Step.Ensures (Consult.Beside (·.id) name made) (best state) fun best both =>
      Consult.Beside (·.id) name made both ∧ d.Assigns .decision best.1 := by
  refine Step.Ensures.read_bind fun both k => ?_
  rw [k.2.actions]
  have joint : ∀ action ∈ made.actions.assignments, d.Assigns .decision action :=
    fun action => (new.actions.mem_assignments h).1
  obtain ⟨first, rest, all⟩ : ∃ first rest, made.actions.assignments = first :: rest := by
    refine List.exists_cons_of_ne_nil fun none => ?_
    rw [Layout.assignments_eq, List.map_eq_nil_iff, List.range_eq_nil] at none
    exact made.actions.size_pos.ne' none
  rw [all] at joint ⊢
  dsimp only
  rw [List.foldlM_cons]
  have start : Step.Ensures (Consult.Beside (·.id) name made)
      (do return betterAction none first (← value state first)) (Found d name made) :=
    consider_ensures h new (joint first List.mem_cons_self) fun _ none => nomatch none
  refine Step.Ensures.bind (start.bind fun best => Step.Ensures.foldlM (fun action listed best => ?_) best)
    fun best => Step.Ensures.pure fun _ ⟨k, b, chosen, b_of⟩ => ⟨k, by rw [chosen]; exact b_of⟩
  refine Step.Ensures.given (fun _ k => k.2) fun ⟨b, chosen, b_of⟩ => ?_
  refine (consider_ensures h new (joint action (List.mem_cons_of_mem _ listed)) fun c hc => ?_).of_imp
    fun _ k => k.1
  cases chosen.symm.trans hc
  exact b_of

theorem deliberate_ensures (h : d.WellFormed) (new : made.New d) (state : Assignment) :
    Step.Ensures (Consult.Beside (·.id) name made) (deliberate state action) fun advice both =>
      Consult.Beside (·.id) name made both ∧ ∀ a ∈ advice, d.Assigns .decision a := by
  refine Step.Ensures.bind (best_ensures h new state) fun best => ?_
  refine Step.Ensures.given (fun _ k => k.2) fun best_of => ?_
  refine Step.Ensures.bind ((value_ensures h new).of_imp fun _ k => k.1) fun agent => ?_
  refine Step.Ensures.bind (Consult.update_ensures fun _ => rfl) fun opened => ?_
  refine Step.Ensures.pure fun _ k => ⟨k, fun a said => ?_⟩
  split at said
  · cases said
    exact best_of
  · cases said

end SightedExpert

/-! ## Any expert -/

namespace Expert

variable {name : ExpertId}

/-- What an expert advises after a trial is a joint action. -/
theorem deliberate_ensures (h : d.WellFormed) (new : made.New d) (state_of : d.Assigns .chance state) :
    Step.Ensures (Consult.Beside (Expert.id (α := Rat) (γ := γ)) name made) (deliberate state action)
      fun advice both => Consult.Beside Expert.id name made both ∧ ∀ a ∈ advice, d.Assigns .decision a := by
  refine Step.Ensures.read_bind fun ⟨expert, oracle⟩ k => ?_
  cases expert with
  | unreliable e =>
    exact lift_ensures (UnreliableExpert.deliberate_ensures h new state_of) (fun _ same => ⟨k.1, same.2⟩)
      fun _ _ after => after
  | regional e =>
    exact lift_ensures (RegionalExpert.deliberate_ensures h new state_of) (fun _ same => ⟨k.1, same.2⟩)
      fun _ _ after => after
  | sighted e =>
    exact lift_ensures (SightedExpert.deliberate_ensures h new state) (fun _ same => ⟨k.1, same.2⟩)
      fun _ _ after => after

end Expert

/-! ## Panels -/

namespace Panel

/-- What experts say in turn is said under their names, and they keep them. -/
theorem deliberateAll_ensures (h : d.WellFormed) (new : made.New d)
    (state_of : d.Assigns .chance state) {experts experts' : List (Expert Rat γ)}
    {oracle oracle' : Oracle Rat} (faithful : Oracle.Faithful made oracle)
    {said : List (ExpertId × Option Assignment)}
    (ran : deliberateAll state action experts oracle = (.ok said, experts', oracle')) :
    said.map (·.1) = experts.map Expert.id ∧ (∀ s ∈ said, ∀ a ∈ s.2, d.Assigns .decision a) ∧
      experts'.map Expert.id = experts.map Expert.id ∧ Oracle.Faithful made oracle' := by
  induction experts generalizing oracle said experts' oracle' with
  | nil =>
    cases ran
    exact ⟨rfl, fun _ hs => absurd hs List.not_mem_nil, rfl, faithful⟩
  | cons expert rest ih =>
    rcases first : (Expert.deliberate state action).answer (expert, oracle) with
      ⟨e | advice, expert', between⟩
    · simp only [deliberateAll, first] at ran
      cases ran
    · obtain ⟨⟨named, faithful'⟩, advice_of⟩ :=
        Expert.deliberate_ensures h new state_of (expert, oracle) ⟨rfl, faithful⟩ _ _ first
      rcases others : deliberateAll state action rest between with ⟨e | more, rest', after⟩
      · simp only [deliberateAll, first, others] at ran
        cases ran
      · simp only [deliberateAll, first, others] at ran
        cases ran
        obtain ⟨names, more_of, names', faithful''⟩ := ih faithful' others
        refine ⟨?_, List.forall_mem_cons.2 ⟨advice_of, more_of⟩, ?_, faithful''⟩
        · rw [List.map_cons, List.map_cons, names, named]
        · rw [List.map_cons, List.map_cons, names', named]

/-- The bundle of a panel names its experts and joint actions only. -/
theorem advise_ensures (h : d.WellFormed) (new : made.New d) (state_of : d.Assigns .chance state)
    {ids : List ExpertId} :
    Step.Ensures (fun both : Panel Rat γ × Oracle Rat => both.1.ids = ids ∧ Oracle.Faithful made both.2)
      (advise state action) fun bundle both =>
        (both.1.ids = ids ∧ Oracle.Faithful made both.2) ∧ bundle.From ids (d.Assigns .decision) := by
  rintro ⟨panel, oracle⟩ ⟨rfl, faithful⟩ bundle ⟨panel', oracle'⟩ ran
  rw [answer_advise] at ran
  rcases all : deliberateAll state action panel.experts oracle with ⟨e | said, experts, after⟩
  · rw [all] at ran
    cases ran
  · rw [all] at ran
    cases ran
    obtain ⟨names, said_of, names', faithful'⟩ := deliberateAll_ensures h new state_of faithful all
    refine ⟨⟨names', faithful'⟩, ?_⟩
    rw [ids, ← names]
    exact AdviceBundle.from_ofList said_of

end Panel

end Counsel
