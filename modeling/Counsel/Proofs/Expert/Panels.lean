/-
Panels of experts of any kind, however they were used: through the panel or one by one, beside an oracle
that others ask as well (`Panel.Arises`). After a reset a panel is like the one that was made
(`Panel.Grown.reset_twins`), and panels that are alike say the same in every trial (`Panel.advise_repeats`).
-/
import Counsel.Proofs.Expert.Forgetting
import Counsel.Proofs.Experiment.Experts

namespace Counsel

open Outcome

variable {α γ : Type} [Scalar α] [RandomSource γ] {d : Diagram α} {made : Oracle α}
  {state action : Assignment}

namespace Panel

section Rounds

variable {expert expert' : Expert α γ} {oracle oracle' : Oracle α} {rest : List (Expert α γ)}

/-- An expert that fails ends the round. -/
theorem deliberateAll_cons_of_error {e : Error}
    (first : answer (Expert.deliberate state action) (expert, oracle) = (.error e, expert', oracle')) :
    deliberateAll state action (expert :: rest) oracle = (.error e, expert' :: rest, oracle') := by
  have first : (Expert.deliberate state action).answer (expert, oracle) = _ := first
  simp only [deliberateAll, first]

/-- After an expert has spoken or kept silent, the others have their turn. -/
theorem deliberateAll_cons_of_ok {advice : Option Assignment}
    (first : answer (Expert.deliberate state action) (expert, oracle) = (.ok advice, expert', oracle')) :
    deliberateAll state action (expert :: rest) oracle =
      ((deliberateAll state action rest oracle').1.map ((expert'.id, advice) :: ·),
        expert' :: (deliberateAll state action rest oracle').2.1,
        (deliberateAll state action rest oracle').2.2) := by
  have first : (Expert.deliberate state action).answer (expert, oracle) = _ := first
  simp only [deliberateAll, first]

end Rounds

/-- A round leaves experts that have come from those that were made. -/
theorem deliberateAll_grown (h : d.WellFormed) (new : made.New d)
    (action_in : made.actions.Covers action) (state : Assignment) {fresh experts : List (Expert α γ)}
    (kin : List.Forall₂ (Expert.Kin made) fresh experts) {oracle : Oracle α}
    (faithful : Oracle.Faithful made oracle) :
    List.Forall₂ (Expert.Kin made) fresh (deliberateAll state action experts oracle).2.1 ∧
      Oracle.Faithful made (deliberateAll state action experts oracle).2.2 := by
  induction kin generalizing oracle with
  | nil => exact ⟨.nil, faithful⟩
  | @cons _ expert _ rest head tail ih =>
    have grown := Expert.deliberate_grown h new action_in state (expert, oracle) ⟨head, faithful⟩
    rcases first : answer (Expert.deliberate state action) (expert, oracle) with
      ⟨e | advice, expert', between⟩
    · rw [first] at grown
      rw [deliberateAll_cons_of_error first]
      exact ⟨.cons grown.kin tail, grown.oracle⟩
    · rw [first] at grown
      rw [deliberateAll_cons_of_ok first]
      exact ⟨.cons grown.kin (ih grown.oracle).1, (ih grown.oracle).2⟩

/-- A panel as it is made for the diagram of an oracle. -/
def New (made : Oracle α) (panel : Panel α γ) : Prop := ∀ expert ∈ panel.experts, Expert.New made expert

omit [Scalar α] [RandomSource γ] in
theorem distinct_eq_ok {name : String} {seen : List ExpertId} {rest experts : List (Expert α γ)}
    {panel : Panel α γ} (built : distinct name seen rest experts = .ok panel) :
    panel = ⟨name, experts⟩ := by
  induction rest generalizing seen with
  | nil =>
    cases built
    rfl
  | cons expert rest ih =>
    rw [distinct] at built
    split at built
    · cases built
    · exact ih built

/-- Experts that are built one by one are new if each of them is. -/
theorem new_of_mapM {ι : Type} {build : ι → Except Error (Expert α γ)} {items : List ι}
    {experts : List (Expert α γ)} (built : items.mapM build = .ok experts)
    (each : ∀ i expert, build i = .ok expert → Expert.New made expert) (name : String) :
    New made (⟨name, experts⟩ : Panel α γ) := fun expert listed =>
  have ⟨i, _, made⟩ := forall₂_right_mem (mapM_eq_ok.1 built) listed
  each i expert made

theorem new_of_ofConfig {config : PanelConfig α} {seed : UInt64} {panel : Panel α γ}
    (built : ofConfig config seed = .ok panel) : panel.New made := by
  unfold ofConfig at built
  split at built
  · cases built
  · obtain ⟨experts, listed, built⟩ := bind_eq_ok.1 built
    cases built
    refine new_of_mapM listed (fun _ expert built => ?_) _
    obtain ⟨e, single, built⟩ := bind_eq_ok.1 built
    cases built
    exact .unreliable single

theorem new_of_ofRegions {name : String} {reliabilities : List (List α)} {regions : StateTable Nat}
    {disclosure : DisclosureConfig α} {seed : UInt64} {panel : Panel α γ}
    (built : ofRegions name reliabilities regions disclosure made.states seed = .ok panel) :
    panel.New made := by
  obtain ⟨experts, listed, built⟩ := bind_eq_ok.1 built
  cases distinct_eq_ok built
  refine new_of_mapM listed (fun _ expert built => ?_) _
  obtain ⟨e, single, built⟩ := bind_eq_ok.1 built
  cases built
  exact .regional single

theorem new_of_ofHidden {name : String} {hidden : List (List String)}
    {disclosure : DisclosureConfig α} {panel : Panel α γ}
    (built : ofHidden name hidden disclosure made.states made.actions = .ok panel) :
    panel.New made := by
  obtain ⟨experts, listed, built⟩ := bind_eq_ok.1 built
  cases distinct_eq_ok built
  refine new_of_mapM listed (fun _ expert built => ?_) _
  obtain ⟨e, single, built⟩ := bind_eq_ok.1 built
  cases built
  exact .sighted single

/-- What comes about from a panel that was made, beside the oracle, whatever the two and each of its
experts were asked: about any states, and about actions over the decision variables. -/
inductive Arises (made : Oracle α) (fresh : Panel α γ) : Panel α γ × Oracle α → Prop
  | made : Arises made fresh (fresh, made)
  | renewed {panel : Panel α γ} {oracle : Oracle α} (arises : Arises made fresh (panel, oracle)) :
      Arises made fresh (fresh, oracle)
  | acted {panel : Panel α γ} {oracle : Oracle α} (state : Assignment)
      (arises : Arises made fresh (panel, oracle)) :
      Arises made fresh (panel, (answer (Oracle.act state) oracle).2)
  | asked {panel : Panel α γ} {oracle : Oracle α} (state action : Assignment)
      (arises : Arises made fresh (panel, oracle)) :
      Arises made fresh (panel, (answer (Oracle.expectedUtility state action) oracle).2)
  | called {name : String} {before rest : List (Expert α γ)} {expert expert' : Expert α γ}
      {oracle oracle' : Oracle α} (call : Expert.Call made (expert, oracle) (expert', oracle'))
      (arises : Arises made fresh (⟨name, before ++ expert :: rest⟩, oracle)) :
      Arises made fresh (⟨name, before ++ expert' :: rest⟩, oracle')
  | advised {both : Panel α γ × Oracle α} (state : Assignment) {action : Assignment}
      (action_in : made.actions.Covers action) (arises : Arises made fresh both) :
      Arises made fresh (answer (advise state action) both).2
  | reset {panel : Panel α γ} {oracle : Oracle α} (arises : Arises made fresh (panel, oracle)) :
      Arises made fresh (panel.reset, oracle)

/-- A panel whose experts have come from those that were made, beside an oracle that can be relied on. -/
structure Grown (made : Oracle α) (fresh : Panel α γ) (both : Panel α γ × Oracle α) : Prop where
  name : both.1.name = fresh.name
  experts : List.Forall₂ (Expert.Kin made) fresh.experts both.1.experts
  oracle : Oracle.Faithful made both.2

/-- However a panel was used, its experts have come from those that were made. -/
theorem Arises.grown (h : d.WellFormed) (new : made.New d) {fresh : Panel α γ} (fresh_new : fresh.New made)
    {both : Panel α γ × Oracle α} (arises : Arises made fresh both) : Grown made fresh both := by
  have self : List.Forall₂ (Expert.Kin made) fresh.experts fresh.experts :=
    List.forall₂_same.2 fun expert listed => (fresh_new expert listed).kin
  induction arises with
  | made => exact ⟨rfl, self, new.faithful⟩
  | renewed _ ih => exact ⟨rfl, self, ih.oracle⟩
  | acted state _ ih => exact { ih with oracle := Oracle.act_retains state _ ih.oracle }
  | asked state action _ ih =>
    exact { ih with oracle := Oracle.expectedUtility_retains h new state action _ ih.oracle }
  | @called name before rest expert expert' oracle oracle' call _ ih =>
    have kin' : ∀ fresh, Expert.Kin made fresh expert → Expert.Grown made fresh (expert', oracle') :=
      fun fresh kin => call.grown h new ⟨kin, ih.oracle⟩
    obtain ⟨parent, -, kin⟩ := forall₂_right_mem ih.experts
      (List.mem_append_right before List.mem_cons_self)
    exact ⟨ih.name, forall₂_replace ih.experts fun fresh kin => (kin' fresh kin).kin,
      (kin' parent kin).oracle⟩
  | @advised both state action action_in _ ih =>
    obtain ⟨experts, faithful⟩ := deliberateAll_grown h new action_in state ih.experts ih.oracle
    exact ⟨ih.name, experts, faithful⟩
  | reset _ ih =>
    exact ⟨ih.name, List.forall₂_map_right_iff.2 (ih.experts.imp fun _ _ kin => kin.reset), ih.oracle⟩

/-- Like panels, beside oracles that can be relied on. -/
structure Twins (made : Oracle α) (s t : Panel α γ × Oracle α) : Prop where
  name : s.1.name = t.1.name
  experts : List.Forall₂ (Expert.Like made) s.1.experts t.1.experts
  first : Oracle.Faithful made s.2
  second : Oracle.Faithful made t.2

omit [RandomSource γ] in
theorem Twins.ids_eq {s t : Panel α γ × Oracle α} (twins : Twins made s t) : s.1.ids = t.1.ids := by
  have same : List.Forall₂ (· = ·) s.1.ids t.1.ids :=
    List.forall₂_map_left_iff.2 (List.forall₂_map_right_iff.2
      (twins.experts.imp fun _ _ like => like.id_eq))
  exact (List.forall₂_eq_eq_eq ▸ same : _ = _)

/-- After a reset, a panel is like the one that was made. -/
theorem Grown.reset_twins {fresh : Panel α γ} {s t : Panel α γ × Oracle α} (grown : Grown made fresh s)
    (grown' : Grown made fresh t) : Twins made (s.1.reset, s.2) (t.1.reset, t.2) where
  name := grown.name.trans grown'.name.symm
  experts := by
    refine List.forall₂_map_left_iff.2 (List.forall₂_map_right_iff.2 ?_)
    exact forall₂_of_common grown.experts grown'.experts fun _ _ _ kin kin' => kin.reset_like kin'
  first := grown.oracle
  second := grown'.oracle

/-- Twins say the same in a round, and stay twins. -/
theorem deliberateAll_alike (h : d.WellFormed) (new : made.New d) (state_in : made.states.Covers state)
    (action_in : made.actions.Covers action) {experts others : List (Expert α γ)}
    (like : List.Forall₂ (Expert.Like made) experts others) {oracle oracle' : Oracle α}
    (first : Oracle.Faithful made oracle) (second : Oracle.Faithful made oracle') :
    Both (fun said said' => said = said' ∧ (∀ s ∈ said, ∀ a ∈ s.2, made.actions.Covers a) ∧
        List.Forall₂ (Expert.Like made) (deliberateAll state action experts oracle).2.1
          (deliberateAll state action others oracle').2.1 ∧
        Oracle.Faithful made (deliberateAll state action experts oracle).2.2 ∧
        Oracle.Faithful made (deliberateAll state action others oracle').2.2)
      (deliberateAll state action experts oracle).1 (deliberateAll state action others oracle').1 := by
  induction like generalizing oracle oracle' with
  | nil => exact .ok ⟨rfl, fun _ none => absurd none List.not_mem_nil, .nil, first, second⟩
  | @cons expert other rest rest' head tail ih =>
    have same := Expert.deliberate_repeats h new state_in action_in (expert, oracle) (other, oracle')
      ⟨head, first, second⟩
    rw [AlikeAt] at same
    rcases ran : answer (Expert.deliberate state action) (expert, oracle) with ⟨r, expert', between⟩
    rcases ran' : answer (Expert.deliberate state action) (other, oracle') with ⟨r', other', between'⟩
    rw [ran, ran'] at same
    cases same with
    | error =>
      rw [deliberateAll_cons_of_error ran, deliberateAll_cons_of_error ran']
      exact .error
    | ok k =>
      obtain ⟨rfl, fair, twins⟩ := k
      rw [deliberateAll_cons_of_ok ran, deliberateAll_cons_of_ok ran', twins.experts.id_eq]
      refine (ih twins.first twins.second).map ?_
      rintro said _ ⟨same, rest_fair, like, faithful⟩
      exact ⟨by rw [same], List.forall_mem_cons.2 ⟨fair, rest_fair⟩, .cons twins.experts like, faithful⟩

/-- Twins say the same, and stay twins. -/
theorem advise_repeats (h : d.WellFormed) (new : made.New d) (state_in : made.states.Covers state)
    (action_in : made.actions.Covers action) :
    Repeats (Twins (γ := γ) made) (advise state action) fun bundle =>
      ∀ id, ∀ a ∈ bundle.advice? id, made.actions.Covers a := by
  rintro ⟨panel, oracle⟩ ⟨other, oracle'⟩ ⟨name, experts, first, second⟩
  have same := deliberateAll_alike h new state_in action_in experts first second
  rw [AlikeAt, answer_advise, answer_advise]
  refine same.map ?_
  rintro said _ ⟨same, fair, like, first', second'⟩
  exact ⟨congrArg _ same, (AdviceBundle.from_ofList fair).advice, name, like, first', second'⟩

end Panel

end Counsel
