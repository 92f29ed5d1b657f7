/-
What a reset leaves of an expert. Whatever an expert was asked for, a reset does not tell it from the one
that was made, but for what a partially sighted one has worked out, which is what the diagram says
(`Expert.Call.grown`). So after a reset it is like that one (`Expert.Kin.reset_like`); and experts that are
alike say the same, beside oracles that can be relied on, and stay alike (`Expert.deliberate_repeats`).
-/
import Counsel.Proofs.Expert.Informed

namespace Counsel

open Outcome

variable {α γ κ β : Type} [Scalar α] {d : Diagram α} {made : Oracle α} {state action : Assignment}

/-! ## Partially sighted experts -/

namespace SightedExpert

variable {fresh : SightedExpert α}

/-- Only the gate of an expert has changed, and what it has worked out, and it can be relied on. -/
def Grown (made : Oracle α) (fresh : SightedExpert α) (both : SightedExpert α × Oracle α) : Prop :=
  ∃ gate, gate.config = fresh.gate.config ∧ Ready made { fresh with gate } both

theorem value_grown (h : d.WellFormed) (new : made.New d) (action_in : made.actions.Covers action)
    (state : Assignment) : Step.Keeps (Step.Retains (Grown made fresh)) (value state action) :=
  fun both ⟨gate, settings, ready⟩ => ⟨gate, settings, (value_settles h new action_in both ready).2⟩

theorem advise_grown (h : d.WellFormed) (new : made.New d) (state : Assignment) :
    Step.Keeps (Step.Retains (Grown made fresh)) (advise state) :=
  fun both ⟨gate, settings, ready⟩ => ⟨gate, settings, (advise_settles h new state both ready).2⟩

theorem deliberate_grown (h : d.WellFormed) (new : made.New d) (action_in : made.actions.Covers action)
    (state : Assignment) : Step.Keeps (Step.Retains (Grown made fresh)) (deliberate state action) :=
  fun _ ⟨_, settings, ready⟩ =>
    ⟨_, (config_deliberation ..).trans settings, (deliberate_spec h new action_in state ready).2⟩

/-- After a reset the gate is that of the expert that was made. -/
theorem Faithful.reset {expert : SightedExpert α} {gate : Gate α}
    (settings : gate.config = fresh.gate.config) (faithful : Faithful made { fresh with gate } expert) :
    Faithful made { fresh with gate := fresh.gate.reset } expert.reset := by
  have same : expert.gate.reset = fresh.gate.reset := by
    rw [faithful.gate]
    exact congrArg Gate.start settings
  exact same ▸ faithful.with_gate expert.gate.reset

/-- Two experts that differ in what they have worked out at most. -/
def Twins (made : Oracle α) (s t : SightedExpert α × Oracle α) : Prop :=
  ∃ like, Ready made like s ∧ Ready made like t

variable {expert : SightedExpert α}

theorem covers_of_consider {items : List Assignment} {best after : Option (Assignment × α)}
    (listed : ∀ a ∈ items, made.actions.Covers a) (start : ∀ b ∈ best, made.actions.Covers b.1)
    (folded : items.foldlM (consider made expert state) best = some after) :
    ∀ b ∈ after, made.actions.Covers b.1 := by
  induction items generalizing best with
  | nil =>
    cases folded
    exact start
  | cons a rest ih =>
    rw [List.foldlM_cons] at folded
    obtain ⟨next, considered, folded⟩ := Option.bind_eq_some_iff.1 folded
    obtain ⟨value, -, rfl⟩ := Option.map_eq_some_iff.1 considered
    have here := listed a List.mem_cons_self
    refine ih (fun b hb => listed b (List.mem_cons_of_mem _ hb)) (fun b hb => ?_) folded
    cases best with
    | none =>
      cases hb
      exact here
    | some held =>
      rw [betterAction] at hb
      split at hb
      · cases hb
        exact here
      · exact start b hb

/-- An expert chooses a joint action, or nothing if there is none. -/
theorem covers_choice? {best : Assignment × α} (chosen : choice? made expert state = some best) :
    made.actions.Covers best.1 := by
  obtain ⟨found, folded, rfl⟩ := Option.map_eq_some_iff.1 chosen
  have covers := covers_of_consider (fun _ => Layout.covers_of_mem_assignments)
    (fun _ none => by cases none) folded
  cases found with
  | none => exact fun name value held => by simp [NameMap.get?_empty] at held
  | some b => exact covers b rfl

theorem covers_deliberation {advice : Option Assignment}
    (said : (deliberation made expert state action).1 = some advice) :
    ∀ a ∈ advice, made.actions.Covers a := by
  unfold deliberation at said
  split at said
  next => cases said
  next weighed found =>
    obtain ⟨best, chosen, found⟩ := Option.bind_eq_some_iff.1 found
    obtain ⟨worth, -, rfl⟩ := Option.map_eq_some_iff.1 found
    cases said
    have spoken : ∀ opened : Bool, ∀ a ∈ (if opened then some best.1 else none),
        made.actions.Covers a := by
      intro opened a here
      split at here
      · cases here
        exact covers_choice? chosen
      · cases here
    exact spoken _

/-- Twins say the same. -/
theorem deliberate_repeats (h : d.WellFormed) (new : made.New d) (action_in : made.actions.Covers action)
    (state : Assignment) :
    Repeats (Twins made) (deliberate state action) fun advice => ∀ a ∈ advice, made.actions.Covers a := by
  rintro s t ⟨like, hs, ht⟩
  have first := deliberate_spec h new action_in state hs
  have second := deliberate_spec h new action_in state ht
  have same : Both Eq (answer (deliberate state action) s).1 (answer (deliberate state action) t).1 :=
    both_eq_iff.2 (first.1.trans second.1.symm)
  refine (same.told fun advice told => ?_).imp fun advice _ k => ⟨k.1, k.2, _, first.2, second.2⟩
  exact covers_deliberation (first.1.symm.trans (toOption_eq_some.2 told))

end SightedExpert

/-! ## Any expert -/

namespace Expert

variable [RandomSource γ]

/-- An expert has come from one that was made: a reset does not tell them apart, but for what was worked
out. -/
inductive Kin (made : Oracle α) : Expert α γ → Expert α γ → Prop
  | unreliable {fresh expert : UnreliableExpert α γ} (same : expert.reset = fresh.reset) :
      Kin made (.unreliable fresh) (.unreliable expert)
  | regional {fresh expert : RegionalExpert α γ} (same : expert.reset = fresh.reset) :
      Kin made (.regional fresh) (.regional expert)
  | sighted {fresh expert : SightedExpert α} {gate : Gate α} (settings : gate.config = fresh.gate.config)
      (faithful : SightedExpert.Faithful made { fresh with gate } expert) :
      Kin made (.sighted fresh) (.sighted expert)

/-- Experts that differ in what they have worked out at most. -/
inductive Like (made : Oracle α) : Expert α γ → Expert α γ → Prop
  | unreliable (expert : UnreliableExpert α γ) : Like made (.unreliable expert) (.unreliable expert)
  | regional (expert : RegionalExpert α γ) : Like made (.regional expert) (.regional expert)
  | sighted {like first second : SightedExpert α} (one : SightedExpert.Faithful made like first)
      (two : SightedExpert.Faithful made like second) : Like made (.sighted first) (.sighted second)

variable {fresh expert other : Expert α γ}

omit [RandomSource γ] in
theorem Like.id_eq (like : Like made expert other) : expert.id = other.id := by
  cases like with
  | unreliable => rfl
  | regional => rfl
  | sighted one two =>
    exact (congrArg SightedExpert.id one.same).trans (congrArg SightedExpert.id two.same).symm

/-- After a reset an expert is like the one that was made. -/
theorem Kin.reset_like (kin : Kin made fresh expert) (kin' : Kin made fresh other) :
    Like made expert.reset other.reset := by
  cases kin with
  | unreliable same =>
    cases kin' with
    | unreliable same' =>
      rw [Expert.reset, Expert.reset, same, same']
      exact .unreliable _
  | regional same =>
    cases kin' with
    | regional same' =>
      rw [Expert.reset, Expert.reset, same, same']
      exact .regional _
  | sighted settings faithful =>
    cases kin' with
    | sighted settings' faithful' => exact .sighted (faithful.reset settings) (faithful'.reset settings')

theorem Kin.reset (kin : Kin made fresh expert) : Kin made fresh expert.reset := by
  cases kin with
  | unreliable same => exact .unreliable same
  | regional same => exact .regional same
  | @sighted fresh _ _ settings faithful =>
    have settled : fresh.gate.reset.config = fresh.gate.config := rfl
    exact .sighted settled (faithful.reset settings)

/-- Experts as they are made for the diagram of an oracle. -/
inductive New (made : Oracle α) : Expert α γ → Prop
  | unreliable {config : ExpertConfig α} {seed : UInt64} {expert : UnreliableExpert α γ}
      (built : UnreliableExpert.ofConfig config seed = .ok expert) : New made (.unreliable expert)
  | regional {name : String} {reliabilities : List α} {regions : StateTable Nat}
      {disclosure : DisclosureConfig α} {seed : UInt64} {expert : RegionalExpert α γ}
      (built : RegionalExpert.ofRegions name reliabilities regions made.states disclosure seed =
        .ok expert) : New made (.regional expert)
  | sighted {name : String} {hidden : List String} {disclosure : DisclosureConfig α}
      {expert : SightedExpert α}
      (built : SightedExpert.ofHidden name hidden made.states made.actions disclosure = .ok expert) :
      New made (.sighted expert)

theorem New.kin (new : New made fresh) : Kin made fresh fresh := by
  cases new with
  | unreliable => exact .unreliable rfl
  | regional => exact .regional rfl
  | sighted built => exact .sighted rfl (SightedExpert.faithful_of_ofHidden built).1

/-- One call to an expert that was made for a diagram, beside an oracle. -/
inductive Call (made : Oracle α) : Expert α γ × Oracle α → Expert α γ × Oracle α → Prop
  | advise (state : Assignment) (both : Expert α γ × Oracle α) :
      Call made both (answer (advise state) both).2
  | deliberate (state : Assignment) {action : Assignment} (action_in : made.actions.Covers action)
      (both : Expert α γ × Oracle α) : Call made both (answer (deliberate state action) both).2
  | value (state : Assignment) {action : Assignment} (action_in : made.actions.Covers action)
      (expert : SightedExpert α) (oracle : Oracle α) :
      Call made (.sighted expert, oracle)
        (.sighted (answer (SightedExpert.value state action) (expert, oracle)).2.1,
          (answer (SightedExpert.value state action) (expert, oracle)).2.2)
  | reset (expert : Expert α γ) (oracle : Oracle α) : Call made (expert, oracle) (expert.reset, oracle)

/-- An expert that has come from one that was made, beside an oracle that can be relied on. -/
structure Grown (made : Oracle α) (fresh : Expert α γ) (both : Expert α γ × Oracle α) : Prop where
  kin : Kin made fresh both.1
  oracle : Oracle.Faithful made both.2

theorem advise_grown (h : d.WellFormed) (new : made.New d) (state : Assignment) :
    Step.Keeps (Step.Retains (Grown made fresh)) (advise state) := by
  rintro ⟨expert, oracle⟩ ⟨kin, faithful⟩
  cases kin with
  | @unreliable fresh expert same =>
    have undone : Consult.Steady (Step.Same UnreliableExpert.reset) made _ _ :=
      UnreliableExpert.advise_steady (fun _ _ => rfl) state (expert, oracle)
    exact ⟨.unreliable (undone.expert.trans same), undone.oracle faithful⟩
  | @regional fresh expert same =>
    have undone : Consult.Steady (Step.Same RegionalExpert.reset) made _ _ :=
      RegionalExpert.advise_steady (fun _ _ => rfl) state (expert, oracle)
    exact ⟨.regional (undone.expert.trans same), undone.oracle faithful⟩
  | @sighted fresh expert gate settings own =>
    obtain ⟨gate', settings', ready⟩ :=
      SightedExpert.advise_grown h new state (expert, oracle) ⟨gate, settings, own, faithful⟩
    exact ⟨.sighted settings' ready.expert, ready.oracle⟩

theorem deliberate_grown (h : d.WellFormed) (new : made.New d) (action_in : made.actions.Covers action)
    (state : Assignment) : Step.Keeps (Step.Retains (Grown made fresh)) (deliberate state action) := by
  rintro ⟨expert, oracle⟩ ⟨kin, faithful⟩
  cases kin with
  | @unreliable fresh expert same =>
    have undone : Consult.Steady (Step.Same UnreliableExpert.reset) made _ _ :=
      UnreliableExpert.deliberate_undone h new state action (expert, oracle)
    exact ⟨.unreliable (undone.expert.trans same), undone.oracle faithful⟩
  | @regional fresh expert same =>
    have undone : Consult.Steady (Step.Same RegionalExpert.reset) made _ _ :=
      RegionalExpert.deliberate_undone h new state action (expert, oracle)
    exact ⟨.regional (undone.expert.trans same), undone.oracle faithful⟩
  | @sighted fresh expert gate settings own =>
    obtain ⟨gate', settings', ready⟩ := SightedExpert.deliberate_grown h new action_in state
      (expert, oracle) ⟨gate, settings, own, faithful⟩
    exact ⟨.sighted settings' ready.expert, ready.oracle⟩

/-- Whatever an expert is asked for, and whether it goes well or not, it is still kin. -/
theorem Call.grown (h : d.WellFormed) (new : made.New d) {before after : Expert α γ × Oracle α}
    (call : Call made before after) (grown : Grown made fresh before) : Grown made fresh after := by
  cases call with
  | advise state => exact advise_grown h new state before grown
  | deliberate state action_in => exact deliberate_grown h new action_in state before grown
  | value state action_in expert oracle =>
    obtain ⟨kin, faithful⟩ := grown
    cases kin with
    | @sighted fresh _ gate settings own =>
      obtain ⟨gate', settings', ready⟩ := SightedExpert.value_grown h new action_in state
        (expert, oracle) ⟨gate, settings, own, faithful⟩
      exact ⟨.sighted settings' ready.expert, ready.oracle⟩
  | reset expert oracle => exact ⟨grown.kin.reset, grown.oracle⟩

/-- Like experts, beside oracles that can be relied on. -/
structure Twins (made : Oracle α) (s t : Expert α γ × Oracle α) : Prop where
  experts : Like made s.1 t.1
  first : Oracle.Faithful made s.2
  second : Oracle.Faithful made t.2

omit [RandomSource γ] in
/-- A step of one kind of expert, which twins repeat. -/
theorem lift_repeats {P : κ × Oracle α → κ × Oracle α → Prop} (wrap : κ → Expert α γ)
    {step : Consult α κ β} {good : β → Prop} (h : Repeats P step good)
    (wrapped : ∀ s t, P s t → Twins made (wrap s.1, s.2) (wrap t.1, t.2)) {s t : κ × Oracle α}
    (twins : P s t) :
    AlikeAt (lift wrap s.1 step) (wrap s.1, s.2) (lift wrap t.1 step) (wrap t.1, t.2)
      fun b c s t => b = c ∧ good b ∧ Twins made s t :=
  (h s t twins).imp fun _ _ k => ⟨k.1, k.2.1, wrapped _ _ k.2.2⟩

omit [Scalar α] [RandomSource γ] in
/-- A step of one kind of expert, of which it is known what holds where it succeeds. -/
theorem lift_ensures {pre : κ × Oracle α → Prop} {post : β → κ × Oracle α → Prop}
    {outer : Expert α γ × Oracle α → Prop} {final : β → Expert α γ × Oracle α → Prop}
    {wrap : κ → Expert α γ} {expert : κ} {step : Consult α κ β} (h : Step.Ensures pre step post)
    (enter : ∀ both, outer both → pre (expert, both.2))
    (leave : ∀ b both, post b both → final b (wrap both.1, both.2)) :
    Step.Ensures outer (lift wrap expert step) final := by
  rintro ⟨other, oracle⟩ holds b both ran
  rcases inner : step.answer (expert, oracle) with ⟨r, e, after⟩
  have lifted : answer (lift wrap expert step) (other, oracle) = (r, wrap e, after) :=
    congrArg (fun told => (told.1, wrap told.2.1, told.2.2)) inner
  cases lifted.symm.trans ran
  exact leave b (e, after) (h (expert, oracle) (enter (other, oracle) holds) b (e, after) inner)

/-- Twins say the same, and stay twins. -/
theorem deliberate_repeats (h : d.WellFormed) (new : made.New d) (state_in : made.states.Covers state)
    (action_in : made.actions.Covers action) :
    Repeats (Twins (γ := γ) made) (deliberate state action) fun advice =>
      ∀ a ∈ advice, made.actions.Covers a := by
  rintro ⟨_, oracle⟩ ⟨_, oracle'⟩ ⟨like, first, second⟩
  rw [AlikeAt, deliberate, answer_get_bind, answer_get_bind]
  cases like with
  | unreliable expert =>
    have same : Consult.Twins made (expert, oracle) (expert, oracle') := ⟨rfl, first, second⟩
    have lifted := lift_repeats .unreliable
      (UnreliableExpert.deliberate_repeats h new state_in action_in)
      (fun s t k => ⟨k.1 ▸ .unreliable s.1, k.2.1, k.2.2⟩) same
    exact lifted
  | regional expert =>
    have same : Consult.Twins made (expert, oracle) (expert, oracle') := ⟨rfl, first, second⟩
    have lifted := lift_repeats .regional (RegionalExpert.deliberate_repeats h new state_in action_in)
      (fun s t k => ⟨k.1 ▸ .regional s.1, k.2.1, k.2.2⟩) same
    exact lifted
  | @sighted like expert other one two =>
    have same : SightedExpert.Twins made (expert, oracle) (other, oracle') :=
      ⟨like, ⟨one, first⟩, two, second⟩
    have wrapped : ∀ s t, SightedExpert.Twins made s t →
        Twins made (Expert.sighted (γ := γ) s.1, s.2) (.sighted t.1, t.2) := by
      rintro s t ⟨_, hs, ht⟩
      exact ⟨.sighted hs.expert ht.expert, hs.oracle, ht.oracle⟩
    have lifted := lift_repeats (.sighted : SightedExpert α → Expert α γ)
      (SightedExpert.deliberate_repeats h new action_in state) wrapped same
    exact lifted

end Expert

end Counsel
