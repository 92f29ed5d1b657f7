/-
Experts who know the optimal action: the unreliable ones, and those whose reliability depends on the
region. Whatever such an expert was asked for, a reset makes of it what it would have made of it before
(`UnreliableExpert.deliberate_undone`, `RegionalExpert.deliberate_undone`); and one such expert says the
same beside any two oracles that can be relied on (`UnreliableExpert.deliberate_repeats`,
`RegionalExpert.deliberate_repeats`).
-/
import Counsel.Proofs.Expert.Noise
import Counsel.Proofs.Expert.Sighted

namespace Counsel

open Outcome

variable {α γ κ β ι : Type} [Scalar α] {d : Diagram α} {made : Oracle α} {state action : Assignment}

namespace Consult

/-! ## One expert, whatever comes of a step -/

/-- The experts are related, and the oracle can still be relied on. That what a reset makes of an expert is the
same is one relation, that it has kept a property is another. -/
structure Steady (R : κ → κ → Prop) (made : Oracle α) (before after : κ × Oracle α) : Prop where
  expert : R before.1 after.1
  oracle : Step.Retains (Oracle.Faithful made) before.2 after.2

variable {R : κ → κ → Prop}

instance [Std.Refl R] : Std.Refl (Steady R made) := ⟨fun both => ⟨Std.Refl.refl both.1, id⟩⟩

instance [IsTrans κ R] : IsTrans (κ × Oracle α) (Steady R made) :=
  ⟨fun _ _ _ h k => ⟨Trans.trans h.expert k.expert, k.oracle ∘ h.oracle⟩⟩

theorem ask_steady [Std.Refl R] {step : Step (Oracle α) β}
    (h : Step.Keeps (Step.Retains (Oracle.Faithful made)) step) : Step.Keeps (Steady R made) (ask step) :=
  h.within fun both _ k => ⟨Std.Refl.refl both.1, k⟩

theorem update_steady {change : κ → β × κ} (h : ∀ expert, R expert (change expert).2) :
    Step.Keeps (Steady R made) (update change) := fun both => ⟨h both.1, id⟩

/-! ## One expert, where a step succeeds -/

/-- An expert of which something is seen, beside an oracle that can be relied on. -/
def Beside (view : κ → ι) (seen : ι) (made : Oracle α) (both : κ × Oracle α) : Prop :=
  view both.1 = seen ∧ Oracle.Faithful made both.2

variable {view : κ → ι} {seen : ι}

theorem Steady.retains {before after : κ × Oracle α} (steady : Steady (Step.Same view) made before after) :
    Step.Retains (Beside view seen made) before after :=
  fun k => ⟨steady.expert.trans k.1, steady.oracle k.2⟩

/-- A question to the oracle leaves the expert alone. -/
theorem ask_ensures {step : Step (Oracle α) β} {post : β → Oracle α → Prop}
    (h : Step.Ensures (Oracle.Faithful made) step post) :
    Step.Ensures (Beside view seen made) (ask step) fun b both => view both.1 = seen ∧ post b both.2 :=
  h.within (fun _ k => k.2) fun _ k _ _ asked => ⟨k.1, asked⟩

/-- A change that is not seen leaves the oracle alone. -/
theorem update_ensures {change : κ → β × κ} (h : ∀ expert, view (change expert).2 = view expert) :
    Step.Ensures (Beside view seen made) (update change) fun _ => Beside view seen made := by
  rintro both k b after ran
  cases ran
  exact ⟨(h both.1).trans k.1, k.2⟩

/-! ## One expert beside two oracles -/

/-- The same expert, beside oracles that can be relied on. -/
def Twins (made : Oracle α) (s t : κ × Oracle α) : Prop :=
  s.1 = t.1 ∧ Oracle.Faithful made s.2 ∧ Oracle.Faithful made t.2

theorem ask_repeats {step : Step (Oracle α) β} {good : β → Prop} {result : Option β}
    (h : Settles (Oracle.Faithful made) step result) (told : ∀ b, result = some b → good b) :
    Repeats (Twins (κ := κ) made) (ask step) good :=
  Step.repeats_within (Repeats.of_settles h told) (fun _ _ k => k.2) fun _ _ k _ _ m => ⟨k.1, m⟩

theorem update_repeats {change : κ → β × κ} {good : β → Prop} (h : ∀ expert, good (change expert).1) :
    Repeats (Twins made) (update change) good := by
  rintro ⟨expert, _⟩ ⟨_, _⟩ ⟨rfl, k⟩
  exact .ok ⟨rfl, h expert, rfl, k⟩

/-! ## What experts that know the optimal action do -/

/-- Naming an action around the optimal one in a state. -/
def name (state : Assignment)
    (draw : Layout → Assignment → κ → Except LayoutError Assignment × κ) :
    Consult α κ Assignment := do
  let optimal ← ask (Oracle.act state)
  let actions := (← get).2.actions
  let advice ← update (draw actions optimal)
  Step.ofLayout advice

/-- Letting the gate observe a trial, and what is done then. -/
def attend (state action : Assignment) (observe : α → α → κ → Bool × κ) (next : Bool → Consult α κ β) :
    Consult α κ β := do
  let optimal ← ask (Oracle.bestExpectedUtility state)
  let agent ← ask (Oracle.expectedUtility state action)
  let opened ← update (observe optimal agent)
  next opened

variable {draw : Layout → Assignment → κ → Except LayoutError Assignment × κ}
  {observe : α → α → κ → Bool × κ} {next : Bool → Consult α κ β} {good : β → Prop}

theorem name_steady [Std.Refl R] [IsTrans κ R] (state : Assignment)
    (h : ∀ actions optimal expert, R expert (draw actions optimal expert).2) :
    Step.Keeps (Steady R made) (name state draw) := by
  refine (ask_steady (Oracle.act_retains state)).bind fun optimal => Step.Keeps.bind .get fun both => ?_
  exact (update_steady (h both.2.actions optimal)).bind fun advice => .ofLayout _

theorem attend_steady [Std.Refl R] [IsTrans κ R] (h : d.WellFormed) (new : made.New d)
    (state action : Assignment) (k : ∀ optimal agent expert, R expert (observe optimal agent expert).2)
    (after : ∀ opened, Step.Keeps (Steady R made) (next opened)) :
    Step.Keeps (Steady R made) (attend state action observe next) := by
  refine (ask_steady (Oracle.bestExpectedUtility_retains h new state)).bind fun optimal => ?_
  refine (ask_steady (Oracle.expectedUtility_retains h new state action)).bind fun agent => ?_
  exact (update_steady (k optimal agent)).bind after

/-- What holds however the gate is, if observing a trial is not seen. -/
theorem attend_ensures {post : β → κ × Oracle α → Prop} (h : d.WellFormed) (new : made.New d)
    (unseen : ∀ optimal agent expert, view (observe optimal agent expert).2 = view expert)
    (after : ∀ opened, Step.Ensures (Beside view seen made) (next opened) post) :
    Step.Ensures (Beside view seen made) (attend state action observe next) post := by
  refine (ask_ensures (Oracle.bestExpectedUtility_retains h new state).ensures).bind fun optimal => ?_
  refine (ask_ensures (Oracle.expectedUtility_retains h new state action).ensures).bind fun agent => ?_
  exact (update_ensures (unseen optimal agent)).bind after

/-- Advice that is given changes no more than what would be advised. -/
theorem given_steady [Std.Refl R] {step : Consult α κ Assignment} (h : Step.Keeps (Steady R made) step)
    (opened : Bool) : Step.Keeps (Steady R made) (if opened then some <$> step else pure none) := by
  split
  · exact h.map
  · exact .pure none

/-- Twins name the same action, which is one over the decisions if what is drawn is. -/
theorem name_repeats (h : d.WellFormed) (new : made.New d) (state : Assignment)
    (drawn : ∀ {optimal}, made.actions.Covers optimal → ∀ expert {advice},
      (draw made.actions optimal expert).1 = .ok advice → made.actions.Covers advice) :
    Repeats (Twins made) (name state draw) made.actions.Covers := by
  refine (ask_repeats (Oracle.act_settles state) fun action computed =>
    new.covers_computeAction h (toOption_eq_some.1 computed)).bind fun optimal covers => ?_
  refine Repeats.read_bind fun s t k => ?_
  rw [k.2.1.actions, k.2.2.actions]
  refine ⟨rfl, Repeats.bind (update_repeats fun expert => ?_) fun result told =>
    Step.repeats_ofLayout told⟩
  exact fun advice => drawn covers expert

theorem attend_repeats (h : d.WellFormed) (new : made.New d) (state_in : made.states.Covers state)
    (action_in : made.actions.Covers action) (after : ∀ opened, Repeats (Twins made) (next opened) good) :
    Repeats (Twins made) (attend state action observe next) good := by
  refine (ask_repeats (Oracle.bestExpectedUtility_settles h new state_in)
    fun _ _ => trivial).bind fun optimal _ => ?_
  refine (ask_repeats (Oracle.expectedUtility_settles h new state_in action_in)
    fun _ _ => trivial).bind fun agent _ => ?_
  have observed : Repeats (Twins made) (update (observe optimal agent)) fun _ => True :=
    update_repeats fun _ => trivial
  exact observed.bind fun opened _ => after opened

omit [Scalar α] in
/-- Advice that is given is one over the decisions if what would be advised is. -/
theorem spoken_repeats {P : κ × Oracle α → κ × Oracle α → Prop} {step : Consult α κ Assignment}
    {fair : Assignment → Prop} (h : Repeats P step fair) :
    Repeats P (some <$> step) fun advice => ∀ a ∈ advice, fair a :=
  h.map fun _ covers _ said => Option.mem_some.1 said ▸ covers

omit [Scalar α] in
theorem silent_repeats {P : κ × Oracle α → κ × Oracle α → Prop} {fair : Assignment → Prop} :
    Repeats P (pure none : Consult α κ (Option Assignment)) fun advice => ∀ a ∈ advice, fair a :=
  .pure fun _ said => nomatch said

end Consult

variable [RandomSource γ]

/-- What is drawn around an action over some variables is one over them. -/
theorem covers_noisyAdvice (source : γ) (reliability : α) {actions : Layout}
    {optimal advice : Assignment} (covers : actions.Covers optimal)
    (drawn : (noisyAdvice source actions optimal reliability).1 = .ok advice) : actions.Covers advice := by
  rcases noisyAdvice_cases source actions optimal reliability with
    ⟨-, told⟩ | ⟨-, -, ⟨e, -, told⟩ | ⟨best, -, lt, told⟩⟩
  all_goals
    rw [told] at drawn
    cases drawn
  · exact covers
  · exact Layout.covers_of_mem_assignments (Layout.mem_assignments_of_eq (Layout.assignmentAt_skip lt))

namespace UnreliableExpert

/-- What is drawn around an optimal action. -/
def draw (actions : Layout) (optimal : Assignment) (expert : UnreliableExpert α γ) :
    Except LayoutError Assignment × UnreliableExpert α γ :=
  let (advice, source) := noisyAdvice expert.source actions optimal expert.reliability
  (advice, { expert with source })

def observe (optimal agent : α) (expert : UnreliableExpert α γ) : Bool × UnreliableExpert α γ :=
  let (opened, gate) := expert.gate.observe optimal agent
  (opened, { expert with gate })

def fade (expert : UnreliableExpert α γ) : Unit × UnreliableExpert α γ :=
  match expert.degradeFactor with
  | none => ((), expert)
  | some factor => ((), { expert with reliability := expert.reliability * factor })

/-- The advice, if the expert speaks, which fades in any case. -/
def speak (state : Assignment) (opened : Bool) : Consult α (UnreliableExpert α γ) (Option Assignment) := do
  let advice ← if opened then some <$> advise state else pure none
  Consult.update fade
  return advice

theorem advise_eq (state : Assignment) : advise (α := α) (γ := γ) state = Consult.name state draw := rfl

theorem deliberate_eq (state action : Assignment) :
    deliberate (α := α) (γ := γ) state action = Consult.attend state action observe (speak state) := rfl

theorem speak_eq (state : Assignment) (opened : Bool) : speak (α := α) (γ := γ) state opened =
    (if opened then some <$> advise state else pure none) >>= fun advice => do
      Consult.update fade
      return advice := by
  cases opened <;> rfl

section Steady

variable {R : UnreliableExpert α γ → UnreliableExpert α γ → Prop} [Std.Refl R] [IsTrans _ R]

/-- What is drawn changes nothing of an expert but its source. -/
theorem advise_steady (blind : ∀ expert source, R expert { expert with source }) (state : Assignment) :
    Step.Keeps (Consult.Steady R made) (advise state) := by
  rw [advise_eq]
  exact Consult.name_steady state fun _ _ expert => blind expert _

/-- A trial changes the source, the gate and the reliability. -/
theorem deliberate_steady (h : d.WellFormed) (new : made.New d)
    (blind : ∀ expert source, R expert { expert with source })
    (observed : ∀ optimal agent expert, R expert (observe optimal agent expert).2)
    (faded : ∀ expert, R expert (fade expert).2) (state action : Assignment) :
    Step.Keeps (Consult.Steady R made) (deliberate state action) := by
  rw [deliberate_eq]
  refine Consult.attend_steady h new state action observed fun opened => ?_
  rw [speak_eq]
  refine (Consult.given_steady (advise_steady blind state) opened).bind fun advice => ?_
  exact Step.Keeps.bind (Consult.update_steady faded) fun _ => .pure advice

end Steady

theorem reset_observe (optimal agent : α) (expert : UnreliableExpert α γ) :
    (observe optimal agent expert).2.reset = expert.reset :=
  congrArg (fun gate => { expert.reset with gate }) (expert.gate.reset_observe optimal agent)

theorem reset_fade (expert : UnreliableExpert α γ) : (fade expert).2.reset = expert.reset := by
  unfold fade
  split <;> rfl

theorem deliberate_undone (h : d.WellFormed) (new : made.New d) (state action : Assignment) :
    Step.Keeps (Consult.Steady (Step.Same (UnreliableExpert.reset (α := α) (γ := γ))) made)
      (deliberate state action) :=
  deliberate_steady h new (fun _ _ => rfl) reset_observe reset_fade state action

/-- Twins advise the same. -/
theorem advise_repeats (h : d.WellFormed) (new : made.New d) (state : Assignment) :
    Repeats (Consult.Twins made) (advise (α := α) (γ := γ) state) made.actions.Covers := by
  rw [advise_eq]
  exact Consult.name_repeats h new state fun covers expert _ drawn =>
    covers_noisyAdvice expert.source expert.reliability covers drawn

theorem deliberate_repeats (h : d.WellFormed) (new : made.New d) (state_in : made.states.Covers state)
    (action_in : made.actions.Covers action) :
    Repeats (Consult.Twins made) (deliberate (α := α) (γ := γ) state action) fun advice =>
      ∀ a ∈ advice, made.actions.Covers a := by
  rw [deliberate_eq]
  refine Consult.attend_repeats h new state_in action_in fun opened => ?_
  have closing : ∀ advice : Option Assignment, (∀ a ∈ advice, made.actions.Covers a) →
      Repeats (Consult.Twins made) (do Consult.update (fade (α := α) (γ := γ)); return advice)
        fun advice => ∀ a ∈ advice, made.actions.Covers a := by
    intro advice fair
    have faded : Repeats (Consult.Twins made) (Consult.update (fade (α := α) (γ := γ))) fun _ => True :=
      Consult.update_repeats fun _ => trivial
    exact faded.bind fun _ _ => .pure fair
  unfold speak
  dsimp only
  split
  · exact (Consult.spoken_repeats (advise_repeats h new state)).bind closing
  · exact Consult.silent_repeats.bind closing

end UnreliableExpert

namespace RegionalExpert

/-- What is drawn around an optimal action with some reliability. -/
def draw (reliability : α) (actions : Layout) (optimal : Assignment) (expert : RegionalExpert α γ) :
    Except LayoutError Assignment × RegionalExpert α γ :=
  let (advice, source) := noisyAdvice expert.source actions optimal reliability
  (advice, { expert with source })

def observe (optimal agent : α) (expert : RegionalExpert α γ) : Bool × RegionalExpert α γ :=
  let (opened, gate) := expert.gate.observe optimal agent
  (opened, { expert with gate })

/-- The advice, if the expert speaks. -/
def speak (state : Assignment) (opened : Bool) : Consult α (RegionalExpert α γ) (Option Assignment) :=
  if opened then some <$> advise state else return none

theorem advise_eq (state : Assignment) : advise (α := α) (γ := γ) state = (do
    let reliability ← Step.ofLayout ((← get).1.reliabilityIn state)
    Consult.name state (draw reliability)) := rfl

theorem deliberate_eq (state action : Assignment) :
    deliberate (α := α) (γ := γ) state action = Consult.attend state action observe (speak state) := rfl

section Steady

variable {R : RegionalExpert α γ → RegionalExpert α γ → Prop} [Std.Refl R] [IsTrans _ R]

/-- What is drawn changes nothing of an expert but its source. -/
theorem advise_steady (blind : ∀ expert source, R expert { expert with source }) (state : Assignment) :
    Step.Keeps (Consult.Steady R made) (advise state) := by
  rw [advise_eq]
  refine Step.Keeps.bind .get fun both => Step.Keeps.bind (.ofLayout _) fun reliability => ?_
  exact Consult.name_steady state fun _ _ expert => blind expert _

/-- A trial changes the source and the gate. -/
theorem deliberate_steady (h : d.WellFormed) (new : made.New d)
    (blind : ∀ expert source, R expert { expert with source })
    (observed : ∀ optimal agent expert, R expert (observe optimal agent expert).2)
    (state action : Assignment) : Step.Keeps (Consult.Steady R made) (deliberate state action) := by
  rw [deliberate_eq]
  exact Consult.attend_steady h new state action observed (Consult.given_steady (advise_steady blind state))

end Steady

theorem reset_observe (optimal agent : α) (expert : RegionalExpert α γ) :
    (observe optimal agent expert).2.reset = expert.reset :=
  congrArg (fun gate => { expert.reset with gate }) (expert.gate.reset_observe optimal agent)

theorem deliberate_undone (h : d.WellFormed) (new : made.New d) (state action : Assignment) :
    Step.Keeps (Consult.Steady (Step.Same (RegionalExpert.reset (α := α) (γ := γ))) made)
      (deliberate state action) :=
  deliberate_steady h new (fun _ _ => rfl) reset_observe state action

/-- Twins advise the same. -/
theorem advise_repeats (h : d.WellFormed) (new : made.New d) (state : Assignment) :
    Repeats (Consult.Twins made) (advise (α := α) (γ := γ) state) made.actions.Covers := by
  rw [advise_eq]
  refine Repeats.read_bind fun s t k => ?_
  rw [k.1]
  have placed : Repeats (Consult.Twins made)
      (Step.ofLayout (t.1.reliabilityIn state) : Consult α (RegionalExpert α γ) α) fun _ => True :=
    Step.repeats_ofLayout fun _ _ => trivial
  refine ⟨rfl, placed.bind fun reliability _ => ?_⟩
  exact Consult.name_repeats h new state fun covers expert _ drawn =>
    covers_noisyAdvice expert.source reliability covers drawn

theorem deliberate_repeats (h : d.WellFormed) (new : made.New d) (state_in : made.states.Covers state)
    (action_in : made.actions.Covers action) :
    Repeats (Consult.Twins made) (deliberate (α := α) (γ := γ) state action) fun advice =>
      ∀ a ∈ advice, made.actions.Covers a := by
  rw [deliberate_eq]
  refine Consult.attend_repeats h new state_in action_in fun opened => ?_
  rw [speak]
  split
  · exact Consult.spoken_repeats (advise_repeats h new state)
  · exact Consult.silent_repeats

end RegionalExpert

end Counsel
