/-
Panels of unreliable experts in possible states. What such an expert advises is a joint action
(`noisyAdvice_eq_ok`), so every expert of a panel deliberates without failing, and the bundle of a panel
names its experts and joint actions only (`advise_yields`). A panel whose settings pass is made, with the
names of the settings (`exists_ofConfig`).
-/
import Counsel.Expert.Panel
import Counsel.Proofs.Config.Valid
import Counsel.Proofs.Experiment.Oracle
import Counsel.Proofs.Expert.Noise
import Counsel.Proofs.Trust.Ready

namespace Counsel

open Outcome

variable {d : Diagram Rat} {γ : Type} [RandomSource γ] {state action : Assignment}

/-! ## One expert -/

/-- What an unreliable expert advises is a joint action. -/
theorem noisyAdvice_eq_ok {α : Type} [Scalar α] {d : Diagram α} (h : d.WellFormed) {actions : Layout}
    (lays : d.Lays .decision actions) {optimal : Assignment} (optimal_of : d.Assigns .decision optimal)
    (source : γ) (reliability : α) : ∃ advice,
      (noisyAdvice source actions optimal reliability).1 = .ok advice ∧ d.Assigns .decision advice := by
  rcases noisyAdvice_cases source actions optimal reliability with
    ⟨-, told⟩ | ⟨-, -, ⟨e, unread, -⟩ | ⟨best, -, lt, told⟩⟩
  · exact ⟨optimal, congrArg Prod.fst told, optimal_of⟩
  · obtain ⟨i, read⟩ := lays.reads h optimal_of
    cases read.symm.trans unread
  · exact ⟨_, congrArg Prod.fst told, (lays.mem_assignments h).1
      (Layout.mem_assignments_of_eq (Layout.assignmentAt_skip lt))⟩

namespace UnreliableExpert

/-- An expert of a name beside an oracle. -/
def Beside (d : Diagram Rat) (id : ExpertId) (both : UnreliableExpert Rat γ × Oracle Rat) : Prop :=
  both.1.id = id ∧ Oracle.Sound d both.2

variable {id : ExpertId}

omit [RandomSource γ] in
/-- A question to the oracle leaves the expert alone. -/
theorem ask_yields {β : Type} {step : Step (Oracle Rat) β} {post : β → Oracle Rat → Prop}
    (h : Step.Yields (Oracle.Sound d) step post) :
    Step.Yields (Beside (γ := γ) d id) (Consult.ask step) fun b both =>
      both.1.id = id ∧ post b both.2 :=
  h.within (fun _ k => k.2) fun _ k _ _ asked => ⟨k.1, asked⟩

omit [RandomSource γ] in
/-- A change that keeps the name leaves the oracle alone. -/
theorem update_yields {β : Type} {change : UnreliableExpert Rat γ → β × UnreliableExpert Rat γ}
    (h : ∀ expert, (change expert).2.id = expert.id) :
    Step.Yields (Beside d id) (Consult.update change) fun b both =>
      Beside d id both ∧ ∃ expert, b = (change expert).1 :=
  fun both k => ⟨_, ((change both.1).2, both.2), rfl, ⟨(h both.1).trans k.1, k.2⟩, both.1, rfl⟩

theorem advise_yields (h : d.WellFormed) (state_of : d.Assigns .chance state) :
    Step.Yields (Beside (γ := γ) d id) (advise state) fun advice both =>
      Beside d id both ∧ d.Assigns .decision advice := by
  refine (ask_yields (Oracle.act_yields h state_of)).bind fun optimal => ?_
  refine Step.Yields.read_bind fun _ ⟨_, sound, optimal_of⟩ => ?_
  refine Step.Yields.bind ((update_yields fun expert => rfl).of_imp fun _ k => ⟨k.1, k.2.1⟩)
    fun result => Step.Yields.ofLayout ?_
  rintro after ⟨beside, expert, rfl⟩
  obtain ⟨advice, made, advice_of⟩ :=
    noisyAdvice_eq_ok h sound.actions optimal_of expert.source expert.reliability
  exact ⟨advice, made, beside, advice_of⟩

omit [RandomSource γ] in
/-- Whether or not it has spoken, what changes of an expert in the end is not its name. -/
theorem closing_yields {change : UnreliableExpert Rat γ → Unit × UnreliableExpert Rat γ}
    (h : ∀ expert, (change expert).2.id = expert.id) (advice : Option Assignment) :
    Step.Yields (fun both => Beside d id both ∧ ∀ a ∈ advice, d.Assigns .decision a)
      (Consult.update change >>= fun _ => pure advice)
      fun advice both => Beside d id both ∧ ∀ a ∈ advice, d.Assigns .decision a := by
  rintro both ⟨beside, advice_of⟩
  obtain ⟨_, after, ran, beside', -⟩ := update_yields h both beside
  exact ⟨advice, after, by rw [answer_bind_of_ok ran]; rfl, beside', advice_of⟩

/-- An expert deliberates without failing, and keeps its name. -/
theorem deliberate_yields (h : d.WellFormed) (possible : d.Possible state)
    (action_of : d.Assigns .decision action) :
    Step.Yields (Beside (γ := γ) d id) (deliberate state action) fun advice both =>
      Beside d id both ∧ ∀ a ∈ advice, d.Assigns .decision a := by
  refine (ask_yields (Oracle.bestExpectedUtility_yields h possible)).bind fun optimal => ?_
  refine (ask_yields (Oracle.expectedUtility_yields h possible action_of)).bind fun agent => ?_
  refine (update_yields fun expert => rfl).bind fun opened => ?_
  dsimp only
  split
  · have spoken : Step.Yields
        (fun both : UnreliableExpert Rat γ × Oracle Rat => Beside d id both)
        (some <$> advise state)
        fun advice both => Beside d id both ∧ ∀ a ∈ advice, d.Assigns .decision a :=
      (advise_yields h possible.assigns).map fun advice both k =>
        ⟨k.1, fun a said => Option.mem_some.1 said ▸ k.2⟩
    exact (spoken.of_imp fun _ k => k.1).bind
      (closing_yields fun expert => by cases expert.degradeFactor <;> rfl)
  · exact (Step.Yields.pure fun both k => ⟨k.1, fun _ said => nomatch said⟩).bind
      (closing_yields fun expert => by cases expert.degradeFactor <;> rfl)

end UnreliableExpert

/-! ## Experts of a panel -/

namespace Expert

/-- An unreliable expert of a name. -/
def Member (id : ExpertId) (expert : Expert Rat γ) : Prop :=
  ∃ e, expert = .unreliable e ∧ e.id = id

variable {id : ExpertId}

theorem answer_deliberate_unreliable (e : UnreliableExpert Rat γ) (oracle : Oracle Rat) :
    answer (deliberate state action) (.unreliable e, oracle) =
      ((answer (UnreliableExpert.deliberate state action) (e, oracle)).1,
        .unreliable (answer (UnreliableExpert.deliberate state action) (e, oracle)).2.1,
        (answer (UnreliableExpert.deliberate state action) (e, oracle)).2.2) := rfl

theorem deliberate_yields (h : d.WellFormed) (possible : d.Possible state)
    (action_of : d.Assigns .decision action) :
    Step.Yields (fun both : Expert Rat γ × Oracle Rat => both.1.Member id ∧ Oracle.Sound d both.2)
      (deliberate state action) fun advice both =>
        (both.1.Member id ∧ Oracle.Sound d both.2) ∧ ∀ a ∈ advice, d.Assigns .decision a := by
  rintro ⟨_, oracle⟩ ⟨⟨e, rfl, named⟩, sound⟩
  obtain ⟨advice, ⟨e', oracle'⟩, ran, ⟨named', sound'⟩, advice_of⟩ :=
    UnreliableExpert.deliberate_yields h possible action_of (e, oracle) ⟨named, sound⟩
  exact ⟨advice, (.unreliable e', oracle'), by rw [answer_deliberate_unreliable, ran],
    ⟨⟨e', rfl, named'⟩, sound'⟩, advice_of⟩

omit [RandomSource γ] in
theorem Member.id_eq {expert : Expert Rat γ} (m : expert.Member id) : expert.id = id := by
  obtain ⟨e, rfl, rfl⟩ := m
  rfl

theorem Member.reset {expert : Expert Rat γ} (m : expert.Member id) : expert.reset.Member id := by
  obtain ⟨e, rfl, rfl⟩ := m
  exact ⟨_, rfl, rfl⟩

end Expert

/-! ## Panels -/

namespace Panel

/-- A panel of unreliable experts with the names of its settings. -/
structure Of (config : PanelConfig Rat) (panel : Panel Rat γ) : Prop where
  name : panel.name = config.name
  members : List.Forall₂ Expert.Member (config.experts.map ExpertConfig.displayName) panel.experts

variable {config : PanelConfig Rat}

omit [RandomSource γ] in
theorem Of.ids_eq {panel : Panel Rat γ} (of : panel.Of config) :
    panel.ids = config.experts.map ExpertConfig.displayName := by
  have same : List.Forall₂ (· = ·) (config.experts.map ExpertConfig.displayName) panel.ids :=
    List.forall₂_map_right_iff.2 (of.members.imp fun _ _ m => m.id_eq.symm)
  exact (List.forall₂_eq_eq_eq ▸ same : _ = _).symm

theorem Of.reset {panel : Panel Rat γ} (of : panel.Of config) : panel.reset.Of config :=
  ⟨of.name, List.forall₂_map_right_iff.2 (of.members.imp fun _ _ m => m.reset)⟩

/-- Experts deliberate in turn without failing, and say what they say under their names. -/
theorem exists_deliberateAll (h : d.WellFormed) (possible : d.Possible state)
    (action_of : d.Assigns .decision action) {ids : List ExpertId} {experts : List (Expert Rat γ)}
    (members : List.Forall₂ Expert.Member ids experts) {oracle : Oracle Rat}
    (sound : Oracle.Sound d oracle) :
    ∃ said experts' oracle', deliberateAll state action experts oracle =
        (.ok said, experts', oracle') ∧
      said.map (·.1) = ids ∧ (∀ s ∈ said, ∀ a ∈ s.2, d.Assigns .decision a) ∧
      List.Forall₂ Expert.Member ids experts' ∧ Oracle.Sound d oracle' := by
  induction members generalizing oracle with
  | nil => exact ⟨[], [], oracle, rfl, rfl, by simp, .nil, sound⟩
  | @cons id expert ids rest m _ ih =>
    obtain ⟨advice, ⟨expert', oracle'⟩, ran, ⟨m', sound'⟩, advice_of⟩ :=
      Expert.deliberate_yields h possible action_of (expert, oracle) ⟨m, sound⟩
    obtain ⟨said, rest', oracle'', ran', named, said_of, members', sound''⟩ := ih sound'
    refine ⟨(expert'.id, advice) :: said, expert' :: rest', oracle'', ?_, ?_, ?_,
      .cons m' members', sound''⟩
    · have ran₁ : (Expert.deliberate state action).answer (expert, oracle) =
          (.ok advice, expert', oracle') := ran
      simp only [deliberateAll, ran₁, ran']
      rfl
    · rw [List.map_cons, named, m'.id_eq]
    · exact List.forall_mem_cons.2 ⟨advice_of, said_of⟩

theorem answer_advise {α : Type} [Scalar α] (panel : Panel α γ) (oracle : Oracle α) :
    answer (advise state action) (panel, oracle) =
      ((deliberateAll state action panel.experts oracle).1.map .ofList,
        { panel with experts := (deliberateAll state action panel.experts oracle).2.1 },
        (deliberateAll state action panel.experts oracle).2.2) := rfl

theorem ids_reset {α : Type} [Scalar α] (panel : Panel α γ) : panel.reset.ids = panel.ids := by
  rw [ids, ids, reset, List.map_map]
  refine List.map_congr_left fun expert _ => ?_
  cases expert <;> rfl

/-- A panel beside an oracle. -/
def Beside (d : Diagram Rat) (config : PanelConfig Rat) (both : Panel Rat γ × Oracle Rat) : Prop :=
  both.1.Of config ∧ Oracle.Sound d both.2

/-- A panel is asked for advice without failing. -/
theorem advise_yields (h : d.WellFormed) (possible : d.Possible state)
    (action_of : d.Assigns .decision action) :
    Step.Yields (Beside (γ := γ) d config) (advise state action) fun bundle both =>
      Beside d config both ∧
        bundle.From (config.experts.map ExpertConfig.displayName) (d.Assigns .decision) := by
  rintro ⟨panel, oracle⟩ ⟨of, sound⟩
  obtain ⟨said, experts, oracle', ran, named, said_of, members, sound'⟩ :=
    exists_deliberateAll h possible action_of of.members sound
  refine ⟨.ofList said, ({ panel with experts }, oracle'), ?_, ⟨⟨of.name, members⟩, sound'⟩,
    named ▸ AdviceBundle.from_ofList said_of⟩
  rw [answer_advise, ran]
  rfl

end Panel

end Counsel
