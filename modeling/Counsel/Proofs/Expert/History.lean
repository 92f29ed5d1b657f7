/-
Questions to a partially sighted expert that was asked before. What an action is worth is kept under the
names of what the expert sees and of the decisions; so an action that also names a variable hidden from
the expert is valued with it, and the value is kept for the action without it (`Borrowed`). Any answer is
that of a new expert beside a new oracle, or fails for the same reason, unless such a value is kept
(`value_after`): all that is kept is what the diagram says, or was borrowed (`Grounded`).
-/
import Counsel.Proofs.Oracle.History
import Counsel.Proofs.StateTable

namespace Counsel

open Outcome

variable {α : Type} [Scalar α] {d : Diagram α} {made oracle : Oracle α} {state action : Assignment}

/-- Any question leaves a faithful oracle faithful. -/
theorem Oracle.Question.retains (h : d.WellFormed) (new : made.New d) (question : Oracle.Question) :
    Step.Keeps (Step.Retains (Oracle.Faithful made)) question.ask := by
  cases question with
  | act state => exact .map (act_retains state)
  | expectedUtility state action => exact .map (expectedUtility_retains h new state action)
  | bestExpectedUtility state => exact .map (bestExpectedUtility_retains h new state)

namespace SightedExpert

variable {like expert : SightedExpert α} {key : Assignment} {x : α}

/-! ## Questions -/

/-- A question to an expert, or to the oracle beside it. -/
inductive Question where
  | value (state action : Assignment)
  | advise (state : Assignment)
  | deliberate (state action : Assignment)
  | reset
  | beside (question : Oracle.Question)

def Question.ask : Question → Consult α (SightedExpert α) Unit
  | .value state action => (fun _ => ()) <$> SightedExpert.value state action
  | .advise state => (fun _ => ()) <$> SightedExpert.advise state
  | .deliberate state action => (fun _ => ()) <$> SightedExpert.deliberate state action
  | .reset => Consult.update fun expert => ((), expert.reset)
  | .beside question => (fun _ => ()) <$> Consult.ask question.ask

/-- The state and the action that a question is about. -/
def Question.about? : Question → Option (Assignment × Assignment)
  | .value state action => some (state, action)
  | .deliberate state action => some (state, action)
  | _ => none

/-- An expert and its oracle after some questions. -/
def after (both : SightedExpert α × Oracle α) (questions : List Question) : SightedExpert α × Oracle α :=
  questions.foldl (fun both question => (answer question.ask both).2) both

/-- What does not depend on the gate, and is kept whatever the oracle is asked and whichever action a
question leads to the value of, is kept by the question. -/
theorem Question.retains {P : SightedExpert α × Oracle α → Prop} {actions : Layout} (question : Question)
    (known : ∀ both, P both → both.2.actions = actions)
    (gates : ∀ expert oracle gate, P (expert, oracle) → P ({ expert with gate }, oracle))
    (besides : ∀ expert oracle (question : Oracle.Question), P (expert, oracle) →
      P (expert, (answer question.ask oracle).2))
    (values : ∀ state action, action ∈ actions.assignments ∨ question.about? = some (state, action) →
      Step.Keeps (Step.Retains P) (SightedExpert.value state action)) :
    Step.Keeps (Step.Retains P) (question.ask (α := α)) := by
  have best : ∀ state, Step.Keeps (Step.Retains P) (SightedExpert.best state) := fun state both holds => by
    rw [SightedExpert.best, answer_get_bind, known both holds]
    exact Step.Keeps.bind (Step.Keeps.foldlM (fun action listed best =>
      Step.Keeps.bind (values state action (.inl listed)) fun _ => .pure _) none) (fun _ => .pure _) both holds
  cases question with
  | value state action => exact .map (values state action (.inr rfl))
  | advise state => exact .map (.map (best state))
  | deliberate state action =>
    rw [Question.ask, deliberate_eq]
    refine .map (.bind (.bind (best state) fun _ => ?_) fun weighed => ?_)
    · exact .bind (values state action (.inr rfl)) fun _ => .pure _
    · exact .bind (fun both holds => gates both.1 both.2 _ holds) fun _ => .pure _
  | reset => exact fun both holds => gates both.1 both.2 _ holds
  | beside question => exact .map fun both holds => besides both.1 both.2 question holds

/-! ## What is kept -/

/-- An action names a variable of the state that the expert does not see. -/
def Peeks (made : Oracle α) (like : SightedExpert α) (action : Assignment) : Prop :=
  ∃ name ∈ made.states.names, name ∉ like.visible.names ∧ (action.get? name).isSome = true

/-- A value is that of something that was asked for, of the same cell, with an action that names a hidden
variable. -/
def Borrowed (made : Oracle α) (like : SightedExpert α) (asked : Assignment → Assignment → Prop)
    (key : Assignment) (x : α) : Prop :=
  ∃ state action, asked state action ∧ Peeks made like action ∧
    like.values.layout.Agree (like.view state action) key ∧
    made.diagram.worth? (made.utilities.layout.restrict (like.view state action)) = some x

/-- An expert and its oracle, of which the expert keeps what the diagram says or what was borrowed. -/
structure Grounded (made : Oracle α) (like : SightedExpert α) (asked : Assignment → Assignment → Prop)
    (both : SightedExpert α × Oracle α) : Prop where
  oracle : Oracle.Faithful made both.2
  visible : both.1.visible = like.visible
  layout : both.1.values.layout = like.values.layout
  values : ∀ key x, both.1.values.get key = .ok (some x) →
    made.diagram.worth? (like.values.layout.restrict key) = some x ∨ Borrowed made like asked key x

variable {asked : Assignment → Assignment → Prop}

/-- Joint actions name no hidden variable. -/
theorem not_peeks_of_covers (new : made.New d) (covers : made.actions.Covers action) :
    ¬ Peeks made like action := by
  rintro ⟨name, inside, -, named⟩
  obtain ⟨value, held⟩ := Option.isSome_iff_exists.1 named
  have apart := made.utilities.layout.nodup_names
  rw [Layout.names_of_join new.joined] at apart
  exact List.disjoint_of_nodup_append apart inside (covers name value held)

/-- Unless an action names a hidden variable, the expert and its oracle know it by the same names. -/
theorem restrict_view (new : made.New d) (static : Faithful made like like)
    (blind : ¬ Peeks made like action) :
    made.utilities.layout.restrict (like.view state action) =
      like.values.layout.restrict (like.view state action) := by
  refine (Layout.covers_restrict _).eq_of_agree (static.covers_joint new (Layout.covers_restrict _))
    fun name named => ?_
  rw [Layout.agree_restrict _ name named, Layout.restrict, NameMap.get?_restrict, Layout.contains]
  split
  next => rfl
  next outside =>
    -- a variable that only the oracle knows is not seen, and the action does not name it
    rw [List.contains_iff_mem, Layout.names_of_join static.joined, List.mem_append, not_or] at outside
    rw [Layout.names_of_join new.joined, List.mem_append] at named
    have unnamed : action.get? name = none := by
      by_contra held
      exact blind ⟨name, named.resolve_right outside.2, outside.1, Option.isSome_iff_ne_none.2 held⟩
    have unseen : (like.visible.restrict state).get? name = none := by
      by_contra held
      obtain ⟨value, held⟩ := Option.ne_none_iff_exists'.1 held
      exact outside.1 (Layout.covers_restrict state name value held)
    refine (NameMap.get?_union ..).trans ?_
    rw [unnamed, unseen]
    rfl

/-- What the diagram says about an action that was asked for is grounded for its cell. -/
theorem grounded_of_worth (new : made.New d) (static : Faithful made like like)
    (known : asked state action ∨ ¬ Peeks made like action)
    (agree : like.values.layout.Agree (like.view state action) key)
    (worth : made.diagram.worth? (made.utilities.layout.restrict (like.view state action)) = some x) :
    made.diagram.worth? (like.values.layout.restrict key) = some x ∨ Borrowed made like asked key x := by
  by_cases peeks : Peeks made like action
  · exact .inr ⟨state, action, known.resolve_right (not_not.2 peeks), peeks, agree, worth⟩
  · rw [restrict_view new static peeks, Layout.restrict_congr agree] at worth
    exact .inl worth

/-- Valuing an action keeps what is grounded. -/
theorem Grounded.retains_value (h : d.WellFormed) (new : made.New d) (static : Faithful made like like)
    (known : asked state action ∨ ¬ Peeks made like action) :
    Step.Keeps (Step.Retains (Grounded made like asked)) (value state action) := by
  rintro ⟨expert, oracle⟩ grounded
  have same : expert.view state action = like.view state action := by rw [view, grounded.visible]; rfl
  have faithful : Oracle.Faithful made (answer (Oracle.expectedUtility _ _) oracle).2 :=
    (grounded.oracle.expectedUtility h new (expert.visible.restrict state) action).2
  rcases value_cases expert oracle state action with ⟨e, -, ran⟩ | ⟨x, -, ran⟩ |
    ⟨i, at_i, -, ⟨e, later, told, ran⟩ | ⟨x, later, told, ran⟩⟩
  · exact ran ▸ grounded
  · exact ran ▸ grounded
  · rw [told] at faithful
    exact ran ▸ { grounded with oracle := faithful }
  · have worth := grounded.oracle.worth_of_answer h new (congrArg Prod.fst told)
    rw [told] at faithful
    rw [ran]
    refine { grounded with oracle := faithful, values := fun key y held => ?_ }
    rw [StateTable.get_setAt at_i] at held
    split at held
    next agree =>
      cases held
      rw [grounded.layout, same] at agree
      rw [← new.diagram] at worth
      exact grounded_of_worth new static known agree (same ▸ worth)
    next => exact grounded.values key y held

/-- Valuing an action changes no value that is kept. -/
theorem retains_held : Step.Keeps (Step.Retains fun both => both.1.values.get key = .ok (some x))
    (value (α := α) state action) := by
  rintro ⟨expert, oracle⟩ held
  rcases value_cases expert oracle state action with ⟨e, -, ran⟩ | ⟨x, -, ran⟩ |
    ⟨i, at_i, missing, ⟨e, later, -, ran⟩ | ⟨x, later, -, ran⟩⟩
  · exact ran ▸ held
  · exact ran ▸ held
  · exact ran ▸ held
  · rw [ran]
    refine (StateTable.get_setAt at_i _).trans ?_
    rw [if_neg, held]
    intro agree
    rw [StateTable.get_congr agree] at missing
    cases missing.symm.trans held

/-! ## After some questions -/

theorem after_retains {P : SightedExpert α × Oracle α → Prop} {both : SightedExpert α × Oracle α}
    {questions : List Question} (holds : P both)
    (keeps : ∀ question ∈ questions, Step.Keeps (Step.Retains P) (question.ask (α := α))) :
    P (after both questions) :=
  List.foldlRecOn (motive := P) questions _ holds fun both holds question mem =>
    keeps question mem both holds

/-- Any question keeps what is grounded. -/
theorem Grounded.retains (h : d.WellFormed) (new : made.New d) (static : Faithful made like like)
    (question : Question) (known : ∀ state action, question.about? = some (state, action) →
      asked state action) :
    Step.Keeps (Step.Retains (Grounded made like asked)) question.ask := by
  refine question.retains (fun _ k => k.oracle.actions) (fun _ _ _ k => { k with })
    (fun _ _ question k => { k with oracle := question.retains h new _ k.oracle }) ?_
  rintro state action (joint | about)
  · exact retains_value h new static (.inr (not_peeks_of_covers new (Layout.covers_of_mem_assignments joint)))
  · exact retains_value h new static (.inl (known state action about))

/-- All that an expert keeps is grounded in what it was asked for. -/
theorem grounded_after (h : d.WellFormed) (new : made.New d) (static : Faithful made like like)
    {questions : List Question} (known : ∀ question ∈ questions, ∀ state action,
      question.about? = some (state, action) → asked state action) :
    Grounded made like asked (after (like, made) questions) := by
  refine after_retains ⟨new.faithful, rfl, rfl, fun key x held => .inl ?_⟩ fun question mem =>
    Grounded.retains h new static question (known question mem)
  obtain ⟨i, hi, there⟩ := StateTable.held_of_get held
  exact static.values i x there _ (Layout.covers_restrict key)
    ((Layout.indexOf_congr (Layout.agree_restrict key)).trans hi)

/-- A value that was given is kept. -/
theorem held_of_answer {both : SightedExpert α × Oracle α}
    (told : (answer (value state action) both).1 = .ok x) :
    (answer (value state action) both).2.1.values.get (both.1.view state action) = .ok (some x) := by
  rcases value_cases both.1 both.2 state action with ⟨e, -, ran⟩ | ⟨x, held, ran⟩ |
    ⟨i, at_i, -, ⟨e, later, -, ran⟩ | ⟨x, later, -, ran⟩⟩
  all_goals
    rw [ran] at told ⊢
    cases told
  · exact held
  · exact (StateTable.get_setAt at_i _).trans (if_pos fun _ _ => rfl)

/-- A value that is kept is given. -/
theorem answer_of_held {both : SightedExpert α × Oracle α}
    (held : both.1.values.get (both.1.view state action) = .ok (some x)) :
    (answer (value state action) both).1 = .ok x := by
  rcases value_cases both.1 both.2 state action with ⟨e, at_e, -⟩ | ⟨y, held', ran⟩ |
    ⟨i, at_i, missing, -⟩
  · cases held.symm.trans (StateTable.get_of_error at_e)
  · cases held.symm.trans held'
    rw [ran]
  · cases held.symm.trans missing

/-- Where nothing is kept for an action but what the diagram says, the expert answers as the oracle that was
made does, or fails for the same reason, but for the numbers of factors. -/
theorem Grounded.value_unnumbered (h : d.WellFormed) (new : made.New d) (static : Faithful made like like)
    {both : SightedExpert α × Oracle α} (grounded : Grounded made like asked both)
    (covers : like.values.layout.Covers (like.view state action))
    (right : ∀ x, both.1.values.get (like.view state action) = .ok (some x) →
      made.diagram.worth? (like.view state action) = some x) :
    (answer (value state action) both).1.mapError Error.unnumbered =
      match like.values.layout.indexOf (like.view state action) with
      | .error e => .error (.layout e)
      | .ok _ => (answer (Oracle.expectedUtility (like.visible.restrict state) action)
          made).1.mapError Error.unnumbered := by
  obtain ⟨expert, oracle⟩ := both
  have inside : made.utilities.layout.Covers (Assignment.merge (like.visible.restrict state) action) :=
    static.covers_joint new covers
  have same : expert.view state action = like.view state action := by rw [view, grounded.visible]; rfl
  -- the oracle that was asked before and the one that was made differ in what they hold,
  -- not in what they say
  have asked_oracle : (answer (Oracle.expectedUtility (expert.visible.restrict state) action)
      oracle).1.mapError Error.unnumbered =
      (answer (Oracle.expectedUtility (like.visible.restrict state) action)
        made).1.mapError Error.unnumbered := by
    rw [grounded.visible]
    refine Oracle.expectedUtility_unnumbered h (grounded.oracle.diagram.trans new.diagram) new.diagram
      (new.recalls.held_eq_none _) fun x held => ?_
    have worth := grounded.oracle.worth_of_held held
    rwa [inside.restrict_eq, new.diagram] at worth
  have layout : expert.values.layout = like.values.layout := grounded.layout
  rcases value_cases expert oracle state action with ⟨e, at_e, ran⟩ | ⟨x, held, ran⟩ |
    ⟨i, at_i, -, ⟨e, later, told, ran⟩ | ⟨x, later, told, ran⟩⟩
  · rw [layout, same] at at_e
    rw [ran, at_e]
    rfl
  · obtain ⟨i, at_i, -⟩ := StateTable.held_of_get held
    rw [layout, same] at at_i
    have worth := (new.faithful.expectedUtility h new (like.visible.restrict state) action).1 inside
    rw [← new.diagram, ← view, right x (same ▸ held), toOption_eq_some] at worth
    rw [ran, at_i, worth]
  · rw [layout, same] at at_i
    rw [ran, at_i, ← asked_oracle, told]
  · rw [layout, same] at at_i
    rw [ran, at_i, ← asked_oracle, told]

theorem after_append (both : SightedExpert α × Oracle α) (before : List Question) (question : Question)
    (later : List Question) : after both (before ++ question :: later) =
      after (answer question.ask (after both before)).2 later := by
  rw [after, after, List.foldl_append, List.foldl_cons]
  rfl

/-- What an expert has told for a cell it tells again. -/
theorem value_again (h : d.WellFormed) (new : made.New d) (static : Faithful made like like)
    {state' action' : Assignment} {before : List Question} (later : List Question)
    (told : (answer (value state' action') (after (like, made) before)).1 = .ok x)
    (agree : like.values.layout.Agree (like.view state' action') (like.view state action)) :
    (answer (value state action) (after (like, made) (before ++ .value state' action' :: later))).1 =
      .ok x := by
  have grounded : ∀ questions, Grounded made like (fun _ _ => True) (after (like, made) questions) :=
    fun _ => grounded_after h new static fun _ _ _ _ _ => trivial
  have seen : ∀ questions, (after (like, made) questions).1.view = like.view := fun questions => by
    unfold view
    rw [(grounded questions).visible]
  -- the value is kept right after it was told, and all questions keep it
  have kept : Grounded made like (fun _ _ => True)
        (after (like, made) (before ++ .value state' action' :: later)) ∧
      (after (like, made) (before ++ .value state' action' :: later)).1.values.get
        (like.view state action) = .ok (some x) := by
    rw [after_append, Question.ask, answer_map]
    have held := held_of_answer told
    rw [seen before] at held
    have next : Grounded made like (fun _ _ => True)
        (answer (value state' action') (after (like, made) before)).2 :=
      Grounded.retains_value h new static (.inl trivial) _ (grounded before)
    rw [StateTable.get_congr (next.layout ▸ agree)] at held
    refine after_retains (P := fun both => Grounded made like (fun _ _ => True) both ∧
      both.1.values.get (like.view state action) = .ok (some x)) ⟨next, held⟩ fun question _ => ?_
    refine question.retains (fun _ k => k.1.oracle.actions) (fun _ _ _ k => ⟨{ k.1 with }, k.2⟩)
      (fun _ _ q k => ⟨{ k.1 with oracle := q.retains h new _ k.1.oracle }, k.2⟩)
      fun state action _ both k => ⟨?_, ?_⟩
    · exact Grounded.retains_value h new static (.inl trivial) both k.1
    · exact retains_held both k.2
  exact answer_of_held (by rw [seen]; exact kept.2)

/-- What an expert that was asked before tells is what it told when it was made, but for the numbers of
factors, or is borrowed. -/
theorem value_or_borrowed (h : d.WellFormed) (new : made.New d) (static : Faithful made like like)
    (covers : like.values.layout.Covers (like.view state action)) {questions : List Question}
    (known : ∀ question ∈ questions, ∀ state action, question.about? = some (state, action) →
      asked state action) :
    (answer (value state action) (after (like, made) questions)).1.mapError Error.unnumbered =
      (answer (value state action) (like, made)).1.mapError Error.unnumbered ∨
    ∃ x, (answer (value state action) (after (like, made) questions)).1 = .ok x ∧
      Borrowed made like asked (like.view state action) x := by
  have later : Grounded made like asked (after (like, made) questions) :=
    grounded_after h new static known
  have start : Grounded made like (fun _ _ => False) (after (like, made) []) :=
    grounded_after h new static fun _ mem => nomatch mem
  have seen : (after (like, made) questions).1.view state action = like.view state action := by
    rw [view, later.visible]
    rfl
  by_cases borrowed : ∃ x, (after (like, made) questions).1.values.get (like.view state action) =
      .ok (some x) ∧ Borrowed made like asked (like.view state action) x
  · obtain ⟨x, held, borrowed⟩ := borrowed
    exact .inr ⟨x, answer_of_held (by rw [seen]; exact held), borrowed⟩
  · left
    have right : ∀ x, (after (like, made) questions).1.values.get (like.view state action) =
        .ok (some x) → made.diagram.worth? (like.view state action) = some x := fun x held => by
      rw [← covers.restrict_eq]
      exact (later.values _ x held).resolve_right fun k => borrowed ⟨x, held, k⟩
    have right' : ∀ x, like.values.get (like.view state action) = .ok (some x) →
        made.diagram.worth? (like.view state action) = some x := fun x held => by
      rw [← covers.restrict_eq]
      refine (start.values _ x held).resolve_right ?_
      rintro ⟨-, -, never, -⟩
      exact never
    rw [later.value_unnumbered h new static covers right]
    exact (start.value_unnumbered h new static covers right').symm

/-- Whatever an expert and its oracle were asked before, the expert values an action over the decisions as
when both were made, which is what the action is worth given what the expert sees, or fails for the same
reason but for the numbers of factors; unless it keeps, from an action that named a hidden variable, what
that action was worth with the variable known. What it has once told for a cell it tells again. -/
theorem value_after {decl : Declaration α} (built : decl.build = .ok d)
    (made_of : Oracle.ofDiagram d = .ok made) {name : String} {hidden : List String}
    {disclosure : DisclosureConfig α} {fresh : SightedExpert α}
    (fresh_of : ofHidden name hidden made.states made.actions disclosure = .ok fresh)
    (earlier : List Question) (state : Assignment) (covers : made.actions.Covers action) :
    let told := (answer (value state action) (after (fresh, made) earlier)).1
    let first := (answer (value state action) (fresh, made)).1
    first.toOption = worth? made fresh state action ∧
    (told.mapError Error.unnumbered = first.mapError Error.unnumbered ∨
      ∃ x state' action', told = .ok x ∧
        (∃ question ∈ earlier, question.about? = some (state', action')) ∧
        (∃ name ∈ hidden, (action'.get? name).isSome = true) ∧
        fresh.values.layout.Agree (fresh.view state' action') (fresh.view state action) ∧
        d.worth? (made.utilities.layout.restrict (fresh.view state' action')) = some x) ∧
    ∀ before later state' action' x, earlier = before ++ .value state' action' :: later →
      (answer (value state' action') (after (fresh, made) before)).1 = .ok x →
      fresh.values.layout.Agree (fresh.view state' action') (fresh.view state action) → told = .ok x := by
  have h := Declaration.wellFormed_of_build built
  have new := Oracle.new_of_ofDiagram made_of
  obtain ⟨static, places⟩ := faithful_of_ofHidden fresh_of
  have inside : fresh.values.layout.Covers (fresh.view state action) :=
    (Layout.covers_restrict state).merge static.joined covers
  intro told first
  refine ⟨(value_settles h new covers _ ⟨static, new.faithful⟩).1, ?_, ?_⟩
  · have known : ∀ question ∈ earlier, ∀ state' action', question.about? = some (state', action') →
        ∃ question ∈ earlier, question.about? = some (state', action') :=
      fun question mem _ _ about => ⟨question, mem, about⟩
    rcases value_or_borrowed h new static inside known with
      same | ⟨x, told, state', action', about, ⟨name, of_state, unseen, named⟩, agree, worth⟩
    · exact .inl same
    · refine .inr ⟨x, state', action', told, about, ⟨name, ?_, named⟩, agree, new.diagram ▸ worth⟩
      -- a variable of the state that is not seen is hidden
      obtain ⟨place, mem, rfl⟩ := List.mem_map.1 of_state
      by_contra other
      refine unseen (List.mem_map_of_mem (?_ : place ∈ fresh.visible.places))
      rw [places, List.mem_filter]
      exact ⟨mem, by simpa using other⟩
  · rintro before later state' action' x rfl answered agree
    exact value_again h new static later answered agree

/-- A guide who does not see whether it rains. -/
def guide : SightedExpert Rat :=
  (ofHidden "guide" ["Rain"] outingOracle.states outingOracle.actions .always).toOption.get
    (by decide +kernel)

theorem guide_of : ofHidden "guide" ["Rain"] outingOracle.states outingOracle.actions .always =
    .ok guide := eq_ok_get _

/-- Through the park in a coat, in the rain. -/
def wetPark : Assignment := Assignment.merge dryPark rain

/-- The park in a coat is worth the same to a guide who was asked about it in a state of rain, and less to one
who was asked about an action that names the rain. -/
theorem value_after_wetPark :
    let told := fun earlier => (answer (value NameMap.empty dryPark)
      (after (guide, outingOracle) earlier)).1
    told [] = .ok (17 / 4) ∧
      (told [.value rain dryPark, .advise rain]).mapError Error.unnumbered =
        (told []).mapError Error.unnumbered ∧
      told [.value NameMap.empty wetPark] = .ok 2 := by
  have covers : outingOracle.actions.Covers dryPark :=
    Layout.covers_of_mem_assignments (by decide +kernel)
  have seen := value_after build_outing made_outing guide_of [.value rain dryPark, .advise rain]
    NameMap.empty covers
  have named := value_after build_outing made_outing guide_of [.value NameMap.empty wetPark]
    NameMap.empty covers
  refine ⟨?_, ?_, ?_⟩
  · have worth : worth? outingOracle guide NameMap.empty dryPark = some (17 / 4) := by decide +kernel
    exact toOption_eq_some.1 (named.1.trans worth)
  · rcases seen.2.1 with same | ⟨x, state, action, -, ⟨question, mem, about⟩, ⟨name, hid, names⟩, -⟩
    · exact same
    · exfalso
      rw [List.mem_singleton.1 hid] at names
      rcases List.mem_pair.1 mem with rfl | rfl
      · cases about
        exact absurd names (by decide +kernel)
      · cases about
  · have wet : (answer (value NameMap.empty wetPark) (guide, outingOracle)).1.toOption = some 2 := by
      decide +kernel
    refine named.2.2 [] [] NameMap.empty wetPark 2 rfl (toOption_eq_some.1 wet) ?_
    unfold Layout.Agree
    decide +kernel

end SightedExpert

end Counsel
