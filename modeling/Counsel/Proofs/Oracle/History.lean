/-
Questions to an oracle that was asked before. What it keeps are the values of the assignments that it was
asked for and that could be solved for (`Recalls`), so any reply is that of a new oracle, or fails for the
same reason, but for one kind of question (`reply_after`): the expected utility of an assignment with a name
that the diagram does not have is refused by a new oracle, but the kept value is given if the assignment
without such names was asked for before (`Overlooked`). Acting leaves out the names that it does not know.
-/
import Counsel.Proofs.Oracle.FirstBest

namespace Counsel

open Outcome

variable {α : Type} [Scalar α] {d : Diagram α}

/-! ## Unknown names -/

namespace Diagram

variable {states actions joint : Layout} {key : Assignment}

omit [Scalar α] in
/-- A name that is not found is reported as unknown. -/
theorem lookup_error {name : String} {e : ModelError} (h : d.lookup name = .error e) :
    e = .unknownVariable name := by
  unfold lookup at h
  split at h
  next => cases h
  next => cases h; rfl

/-- An assignment that has a known value for every variable, and further names, is refused as evidence for
one of these. -/
theorem slotsOf_of_stranger (h : d.WellFormed) (lays : d.Lays .chance states)
    (lays' : d.Lays .decision actions) (joined : states.join actions = .ok joint)
    (reads : joint.Reads key) (stranger : ¬ joint.Covers key) :
    ∃ name ∈ key.names, name ∉ joint.names ∧ d.slotsOf key = .error (.unknownVariable name) := by
  rcases placed : key.entries.mapM d.namedSlot with e | slots
  · obtain ⟨⟨name, value⟩, mem, fails⟩ := exists_of_mapM_eq_error placed
    have held := NameMap.get?_eq_some.2 mem
    have refused : d.slotsOf key = .error e := by rw [slotsOf, placed]; rfl
    unfold namedSlot at fails
    rcases found : d.lookup name with e' | v
    · rw [found] at fails
      cases fails
      cases lookup_error found
      refine ⟨name, NameMap.mem_names.2 ⟨value, held⟩, fun inside => ?_, refused⟩
      obtain ⟨place, hp, rfl⟩ := List.mem_map.1 inside
      obtain ⟨v, hv, rfl⟩ := (mem_places_joint h lays lays' joined).1 hp
      rw [h.lookup_eq_ok.2 ⟨hv, rfl⟩] at found
      cases found
    · -- a known name has a value of its domain, which is found
      obtain ⟨hv, rfl⟩ := h.lookup_eq_ok.1 found
      obtain ⟨value', inside, held'⟩ := Layout.reads_iff.1 reads (v.name, v.domain)
        ((mem_places_joint h lays lays' joined).2 ⟨v, hv, rfl⟩)
      cases held.symm.trans held'
      obtain ⟨i, hi⟩ := Layout.exists_position held inside
      obtain ⟨_, same, position⟩ := Layout.position_eq_ok.1 hi
      cases held.symm.trans same
      rw [found, ok_bind] at fails
      simp only [Variable.position?, position] at fails
      cases fails
  · exact absurd (covers_of_slotsOf h lays lays' joined (bind_eq_ok.2 ⟨slots, placed, rfl⟩)) stranger

end Diagram

namespace Oracle

variable {made oracle fresh : Oracle α} {state action key : Assignment} {asked : Assignment → Prop}

/-! ## Questions -/

/-- A question to an oracle. -/
inductive Question where
  | act (state : Assignment)
  | expectedUtility (state action : Assignment)
  | bestExpectedUtility (state : Assignment)

/-- A joint action, or what one is worth. -/
inductive Reply (α : Type) where
  | action (action : Assignment)
  | value (value : α)

def Question.ask : Question → Step (Oracle α) (Reply α)
  | .act state => .action <$> Oracle.act state
  | .expectedUtility state action => .value <$> Oracle.expectedUtility state action
  | .bestExpectedUtility state => .value <$> Oracle.bestExpectedUtility state

def reply (oracle : Oracle α) (question : Question) : Except Error (Reply α) :=
  (answer question.ask oracle).1

/-- The oracle after some questions. -/
def after (oracle : Oracle α) (questions : List Question) : Oracle α :=
  questions.foldl (fun oracle question => (answer question.ask oracle).2) oracle

/-- The assignment that a question asks the expected utility of. -/
def Question.key? (made : Oracle α) : Question → Option Assignment
  | .act _ => none
  | .expectedUtility state action => some (Assignment.merge state action)
  | .bestExpectedUtility state => (made.computeAction state).toOption.map (Assignment.merge state)

/-! ## What is kept -/

/-- An oracle that keeps, for an assignment, what the diagram says at most gives the expected utility that
one gives that keeps nothing for it, or fails for the same reason, but for the numbers of factors. -/
theorem expectedUtility_unnumbered (h : d.WellFormed) (same : oracle.diagram = d)
    (same' : fresh.diagram = d) (blank : fresh.held (Assignment.merge state action) = none)
    (right : ∀ value, oracle.held (Assignment.merge state action) = some value →
      d.worth? (Assignment.merge state action) = some value) :
    (answer (expectedUtility state action) oracle).1.mapError Error.unnumbered =
      (answer (expectedUtility state action) fresh).1.mapError Error.unnumbered := by
  rw [answer_expectedUtility_of_missing blank, same']
  rcases found : oracle.held (Assignment.merge state action) with _ | value
  · have matched := Diagram.solve_parallel h (Assignment.merge state action) oracle.issued fresh.issued
    rw [answer_expectedUtility_of_missing found, same]
    generalize answer (d.solve (Assignment.merge state action)) oracle.issued = run at matched ⊢
    generalize answer (d.solve (Assignment.merge state action)) fresh.issued = run' at matched ⊢
    obtain ⟨r, n⟩ := run
    obtain ⟨r', m⟩ := run'
    cases matched with
    | ok same => exact congrArg (Except.ok ·) same
    | error same => exact congrArg (Except.error <| Error.inference ·) same
  · have worth := right value found
    rw [← d.worth?_eq h _ fresh.issued] at worth
    rw [answer_expectedUtility_of_held found]
    generalize answer (d.solve (Assignment.merge state action)) fresh.issued = run at worth ⊢
    obtain ⟨e | s, m⟩ := run
    · cases worth
    · cases worth
      rfl

/-- A value that is given is that of the assignment without unknown names, as one that is kept. -/
theorem Faithful.worth_of_answer (h : d.WellFormed) (new : made.New d) (faithful : Faithful made oracle)
    {value : α} (told : (answer (Oracle.expectedUtility state action) oracle).1 = .ok value) :
    d.worth? (made.utilities.layout.restrict (Assignment.merge state action)) = some value := by
  rcases found : oracle.held (Assignment.merge state action) with _ | kept
  · have worth := d.worth?_eq h (Assignment.merge state action) oracle.issued
    rw [answer_expectedUtility_of_missing found, faithful.diagram, new.diagram] at told
    rcases solved : answer (d.solve (Assignment.merge state action)) oracle.issued with ⟨e | s, m⟩
    all_goals
      rw [solved] at told worth
      cases told
    -- what could be solved for has names of the diagram only
    rw [(new.covers_of_solve h solved).restrict_eq, ← worth]
    rfl
  · rw [answer_expectedUtility_of_held found] at told
    cases told
    rw [← new.diagram]
    exact faithful.worth_of_held found

/-- An oracle keeps exactly the values of the assignments that it was asked for; it finds them under all
assignments that agree on the names of the diagram. -/
structure Recalls (made : Oracle α) (asked : Assignment → Prop) (oracle : Oracle α) : Prop where
  faithful : Faithful made oracle
  held : ∀ key value, oracle.held key = some value ↔ made.utilities.layout.Reads key ∧
    asked (made.utilities.layout.restrict key) ∧
    made.diagram.worth? (made.utilities.layout.restrict key) = some value

theorem Recalls.congr {others : Assignment → Prop} (recalls : Recalls made asked oracle)
    (same : ∀ key, asked key ↔ others key) : Recalls made others oracle where
  faithful := recalls.faithful
  held key value := by rw [recalls.held, same]

theorem New.recalls (new : made.New d) : Recalls made (fun _ => False) made where
  faithful := new.faithful
  held key value := by
    refine ⟨fun found => ?_, fun never => never.2.1.elim⟩
    obtain ⟨i, -, kept⟩ := held_of_kept found
    exact absurd kept (new.utilities i value)

theorem Recalls.act (recalls : Recalls made asked oracle) (state : Assignment) :
    Recalls made asked (answer (Oracle.act state) oracle).2 where
  faithful := (recalls.faithful.act state).2
  held key value := by
    have same : (answer (Oracle.act state) oracle).2.utilities = oracle.utilities := by
      rw [Oracle.act, answer_get_bind]
      simp only
      split
      next => rfl
      next =>
        rw [answer_bind, Step.answer_ofModel]
        cases oracle.computeAction state <;> rfl
    rw [Oracle.held, same]
    exact recalls.held key value

/-- What is put into a cell is found there, and nothing else is. -/
theorem kept_keep {β : Type} {table : StateTable (Option β)} {i j : Nat} (lt : i < table.layout.size)
    (new : β) :
    kept (keep table (some i) new) (some j) = if i = j then some new else kept table (some j) := by
  rw [keep, kept, kept, Option.bind_some, Option.bind_some, StateTable.at?_setAt lt]
  split <;> rfl

/-- Nothing new is kept for an assignment that was asked for before, or that has no cell or no value of its
own. -/
theorem Recalls.of_nothing_new {wanted : Assignment} {later : Oracle α} (recalls : Recalls made asked oracle)
    (faithful : Faithful made later) (same : later.utilities = oracle.utilities)
    (old : made.utilities.layout.Covers wanted → made.utilities.layout.Reads wanted →
      (made.diagram.worth? wanted).isSome = true → asked wanted) :
    Recalls made (fun key => asked key ∨ key = wanted) later where
  faithful := faithful
  held key value := by
    rw [Oracle.held, same, ← Oracle.held, recalls.held]
    refine and_congr_right fun ⟨i, hi⟩ => and_congr_left fun worth => ⟨.inl, ?_⟩
    rintro (asked_for | rfl)
    · exact asked_for
    · rw [← Layout.indexOf_congr (Layout.agree_restrict key)] at hi
      exact old (Layout.covers_restrict key) ⟨i, hi⟩ (Option.isSome_iff_exists.2 ⟨value, worth⟩)

/-- A new value is found under the assignments of its cell. -/
theorem Recalls.of_kept {wanted : Assignment} {later : Oracle α} {i : Nat} {new : α}
    (recalls : Recalls made asked oracle) (faithful : Faithful made later)
    (covers : made.utilities.layout.Covers wanted) (at_i : made.utilities.layout.indexOf wanted = .ok i)
    (worth : made.diagram.worth? wanted = some new)
    (kept : later.utilities = keep oracle.utilities (some i) new) :
    Recalls made (fun key => asked key ∨ key = wanted) later where
  faithful := faithful
  held key value := by
    have before := recalls.held key value
    rw [Oracle.held, recalls.faithful.layout] at before
    rw [Oracle.held, faithful.layout, kept]
    rcases at_j : made.utilities.layout.indexOf key with e | j
    · exact iff_of_false (fun found => nomatch found) fun ⟨⟨j, hj⟩, _⟩ => by rw [at_j] at hj; cases hj
    · have restricted : made.utilities.layout.indexOf (made.utilities.layout.restrict key) = .ok j :=
        (Layout.indexOf_congr (Layout.agree_restrict key)).trans at_j
      rw [at_j] at before
      rw [show (Except.ok j : Except LayoutError Nat).toOption = some j from rfl,
        kept_keep (recalls.faithful.layout ▸ Layout.indexOf_lt at_i)]
      by_cases same : i = j
      · subst same
        have here := (Layout.covers_restrict key).eq_of_indexOf covers restricted at_i
        rw [if_pos rfl, here, worth]
        exact ⟨fun found => ⟨⟨i, at_j⟩, .inr rfl, found⟩, fun found => found.2.2⟩
      · rw [if_neg same]
        refine before.trans (and_congr_right fun _ => and_congr_left fun _ => ⟨.inl, ?_⟩)
        rintro (asked_for | rfl)
        · exact asked_for
        · exact absurd (Except.ok.inj (at_i.symm.trans restricted)) same

/-- After a question for an expected utility that value is kept, too. -/
theorem Recalls.expectedUtility (h : d.WellFormed) (new : made.New d)
    (recalls : Recalls made asked oracle) (state action : Assignment) :
    Recalls made (fun key => asked key ∨ key = Assignment.merge state action)
      (answer (Oracle.expectedUtility state action) oracle).2 := by
  have faithful := (recalls.faithful.expectedUtility h new state action).2
  rcases found : oracle.held (Assignment.merge state action) with _ | value
  · have worth := d.worth?_eq h (Assignment.merge state action) oracle.issued
    rw [answer_expectedUtility_of_missing found, recalls.faithful.diagram, new.diagram] at faithful ⊢
    rcases solved : answer (d.solve (Assignment.merge state action)) oracle.issued with ⟨e | s, m⟩
    all_goals
      rw [solved] at worth faithful
      rw [← new.diagram] at worth
    · refine recalls.of_nothing_new faithful rfl fun _ _ some_worth => ?_
      rw [← worth] at some_worth
      cases some_worth
    · -- what could be solved for has names of the diagram only, so its index tells it
      have covers := new.covers_of_solve h solved
      rcases at_i : made.utilities.layout.indexOf (Assignment.merge state action) with e | i
      · refine recalls.of_nothing_new faithful ?_ fun _ ⟨i, hi⟩ => by rw [at_i] at hi; cases hi
        simp only [recalls.faithful.layout, at_i]
        rfl
      · refine recalls.of_kept faithful covers at_i worth.symm ?_
        simp only [recalls.faithful.layout, at_i]
        rfl
  · rw [answer_expectedUtility_of_held found] at faithful ⊢
    refine recalls.of_nothing_new faithful rfl fun covers _ _ => ?_
    obtain ⟨-, asked_for, -⟩ := (recalls.held _ _).1 found
    exact covers.restrict_eq ▸ asked_for

/-- What is kept after a question. -/
theorem Recalls.ask (h : d.WellFormed) (new : made.New d) (recalls : Recalls made asked oracle)
    (question : Question) :
    Recalls made (fun key => asked key ∨ question.key? made = some key)
      (answer question.ask oracle).2 := by
  cases question with
  | act state =>
    rw [Question.ask, answer_map]
    exact (recalls.act state).congr fun key => by simp [Question.key?]
  | expectedUtility state action =>
    rw [Question.ask, answer_map]
    exact (recalls.expectedUtility h new state action).congr fun key => by simp [Question.key?, eq_comm]
  | bestExpectedUtility state =>
    have told := (recalls.faithful.answer_act state).1
    have acted := recalls.act state
    rw [Question.ask, answer_map, bestExpectedUtility, answer_bind]
    rcases run : answer (Oracle.act state) oracle with ⟨e | action, later⟩
    all_goals
      rw [run] at told acted
      rcases computed : made.computeAction state with e' | action'
      all_goals rw [computed] at told; cases told
    · exact acted.congr fun key => by simp [Question.key?, computed, Except.toOption]
    · exact (acted.expectedUtility h new state action).congr fun key => by
        simp [Question.key?, computed, Except.toOption, eq_comm]

theorem after_concat (earlier : List Question) (question : Question) :
    oracle.after (earlier ++ [question]) = (answer question.ask (oracle.after earlier)).2 :=
  List.foldl_concat ..

/-- After some questions an oracle keeps what it was asked for. -/
theorem New.recalls_after (h : d.WellFormed) (new : made.New d) (earlier : List Question) :
    Recalls made (fun key => ∃ question ∈ earlier, question.key? made = some key)
      (made.after earlier) := by
  induction earlier using List.reverseRecOn with
  | nil => exact new.recalls.congr fun key => by simp
  | append_singleton earlier question ih =>
    rw [after_concat]
    exact (ih.ask h new question).congr fun key => by simp [or_and_right, exists_or]

/-! ## Replies -/

theorem Faithful.reply_act (faithful : Faithful made oracle) (state : Assignment) :
    oracle.reply (.act state) = ((made.computeAction state).mapError .model).map .action := by
  rw [reply, Question.ask, answer_map, (faithful.answer_act state).1]

theorem reply_expectedUtility (oracle : Oracle α) (state action : Assignment) :
    oracle.reply (.expectedUtility state action) =
      (answer (expectedUtility state action) oracle).1.map .value := by
  rw [reply, Question.ask, answer_map]

/-- What is best is worth what the action is that is named for the state. -/
theorem Faithful.reply_bestExpectedUtility (faithful : Faithful made oracle) (state : Assignment) :
    oracle.reply (.bestExpectedUtility state) =
      match made.computeAction state with
      | .error e => .error (.model e)
      | .ok action => (answer (Oracle.act state) oracle).2.reply (.expectedUtility state action) := by
  have told := (faithful.answer_act state).1
  rw [reply, Question.ask, answer_map, bestExpectedUtility, answer_bind]
  rcases run : answer (Oracle.act state) oracle with ⟨r, later⟩
  rw [run] at told
  subst told
  rcases made.computeAction state with e | action
  · rfl
  · exact (reply_expectedUtility later state action).symm

theorem Recalls.held_eq_none (blank : Recalls made (fun _ => False) fresh) (key : Assignment) :
    fresh.held key = none :=
  Option.eq_none_iff_forall_ne_some.2 fun value found => ((blank.held key value).1 found).2.1

/-- An assignment with names that the diagram does not have, but without these names it has a value and was
asked for. -/
def Overlooked (made : Oracle α) (asked : Assignment → Prop) (key : Assignment) : Prop :=
  let known := made.utilities.layout.restrict key
  ¬ made.utilities.layout.Covers key ∧ made.utilities.layout.Reads key ∧ asked known ∧
    (made.diagram.worth? known).isSome = true

/-- An oracle that was asked before gives the expected utility that a new one does, or fails for the same
reason, but for the numbers of factors. -/
theorem Recalls.expectedUtility_eq (h : d.WellFormed) (new : made.New d)
    (recalls : Recalls made asked oracle) (blank : Recalls made (fun _ => False) fresh)
    (seen : ¬ Overlooked made asked (Assignment.merge state action)) :
    (oracle.reply (.expectedUtility state action)).mapError Error.unnumbered =
      (fresh.reply (.expectedUtility state action)).mapError Error.unnumbered := by
  rw [reply_expectedUtility, reply_expectedUtility, map_mapError, map_mapError,
    expectedUtility_unnumbered h (recalls.faithful.diagram.trans new.diagram)
      (blank.faithful.diagram.trans new.diagram) (blank.held_eq_none _) fun value found => ?_]
  -- the value was kept for the assignment without unknown names, so there are none
  obtain ⟨reads, asked_for, worth⟩ := (recalls.held _ _).1 found
  have covers : made.utilities.layout.Covers (Assignment.merge state action) := by
    by_contra stranger
    exact seen ⟨stranger, reads, asked_for, Option.isSome_iff_exists.2 ⟨value, worth⟩⟩
  rwa [covers.restrict_eq, new.diagram] at worth

/-- Of an assignment that is overlooked an oracle that was asked before gives the value that it keeps, and a
new one refuses a name. -/
theorem Recalls.expectedUtility_of_overlooked (h : d.WellFormed) (new : made.New d)
    (recalls : Recalls made asked oracle) (blank : Recalls made (fun _ => False) fresh)
    (overlooked : Overlooked made asked (Assignment.merge state action)) :
    ∃ value, ∃ name ∈ (Assignment.merge state action).names, name ∉ made.utilities.layout.names ∧
      made.diagram.worth? (made.utilities.layout.restrict (Assignment.merge state action)) = some value ∧
      oracle.reply (.expectedUtility state action) = .ok (.value value) ∧
      fresh.reply (.expectedUtility state action) =
        .error (.inference (.model (.unknownVariable name))) := by
  obtain ⟨stranger, reads, asked_for, some_worth⟩ := overlooked
  obtain ⟨value, worth⟩ := Option.isSome_iff_exists.1 some_worth
  have found := (recalls.held _ _).2 ⟨reads, asked_for, worth⟩
  obtain ⟨name, named, unknown, refused⟩ :=
    Diagram.slotsOf_of_stranger h new.states new.actions new.joined reads stranger
  refine ⟨value, name, named, unknown, worth, ?_, ?_⟩
  · rw [reply_expectedUtility, answer_expectedUtility_of_held found]
    rfl
  · rw [reply_expectedUtility, answer_expectedUtility_of_missing (blank.held_eq_none _),
      blank.faithful.diagram, new.diagram, Diagram.solve, refused]
    rfl

/-- Whatever an oracle was asked before, it replies as when it was made, or fails for the same reason but
for the numbers of factors, unless the question is for the expected utility of an assignment that is
overlooked. Then it gives the value of the assignment without the names that the diagram does not have,
for one of which the question was refused when it was made. -/
theorem reply_after {decl : Declaration α} (built : decl.build = .ok d)
    (made_of : Oracle.ofDiagram d = .ok made) (earlier : List Question) (question : Question) :
    let asked := fun key => ∃ question ∈ earlier, question.key? made = some key
    ((∀ key, question.key? made = some key → ¬ Overlooked made asked key) →
      ((made.after earlier).reply question).mapError Error.unnumbered =
        (made.reply question).mapError Error.unnumbered) ∧
    ∀ key, question.key? made = some key → Overlooked made asked key →
      ∃ value, ∃ name ∈ key.names, name ∉ made.utilities.layout.names ∧
        d.worth? (made.utilities.layout.restrict key) = some value ∧
        (made.after earlier).reply question = .ok (.value value) ∧
        made.reply question = .error (.inference (.model (.unknownVariable name))) := by
  have h := Declaration.wellFormed_of_build built
  have new := new_of_ofDiagram made_of
  have recalls := new.recalls_after h earlier
  have blank := new.recalls
  obtain rfl := new.diagram
  cases question with
  | act state =>
    refine ⟨fun _ => ?_, fun key none => nomatch none⟩
    rw [recalls.faithful.reply_act, blank.faithful.reply_act]
  | expectedUtility state action =>
    refine ⟨fun seen => recalls.expectedUtility_eq h new blank (seen _ rfl), ?_⟩
    rintro _ ⟨⟩ overlooked
    exact recalls.expectedUtility_of_overlooked h new blank overlooked
  | bestExpectedUtility state =>
    rw [recalls.faithful.reply_bestExpectedUtility, blank.faithful.reply_bestExpectedUtility,
      Question.key?]
    rcases made.computeAction state with e | action
    · exact ⟨fun _ => rfl, fun key none => nomatch none⟩
    · have recalls := recalls.act state
      have blank := blank.act state
      refine ⟨fun seen => recalls.expectedUtility_eq h new blank (seen _ rfl), ?_⟩
      rintro _ ⟨⟩ overlooked
      exact recalls.expectedUtility_of_overlooked h new blank overlooked

/-- Rain, and a name that is not in the diagram. -/
def windyRain : Assignment := NameMap.ofList [("Rain", .bool true), ("Wind", .bool true)]

/-- What the park in a coat is worth in the rain is asked for. Then it is asked for again, and once more with
a further name, for which this question was refused before. -/
theorem reply_after_rain :
    let later := outingOracle.after [.expectedUtility rain dryPark]
    (later.reply (.expectedUtility rain dryPark)).mapError Error.unnumbered =
        (outingOracle.reply (.expectedUtility rain dryPark)).mapError Error.unnumbered ∧
      later.reply (.expectedUtility windyRain dryPark) = .ok (.value 2) ∧
      outingOracle.reply (.expectedUtility windyRain dryPark) =
        .error (.inference (.model (.unknownVariable "Wind"))) := by
  have reads : outingOracle.utilities.layout.Reads (Assignment.merge windyRain dryPark) :=
    ⟨5, by decide +kernel⟩
  have without : outingOracle.utilities.layout.restrict (Assignment.merge windyRain dryPark) =
    Assignment.merge rain dryPark := by decide +kernel
  have worth : outingDiagram.worth? (Assignment.merge rain dryPark) = some 2 := by decide +kernel
  have covers : outingOracle.utilities.layout.Covers (Assignment.merge rain dryPark) :=
    without ▸ Layout.covers_restrict _
  have stranger : ¬ outingOracle.utilities.layout.Covers (Assignment.merge windyRain dryPark) :=
    fun covers => absurd (covers "Wind" (.bool true) (by decide +kernel)) (by decide +kernel)
  have only : ∀ name ∈ (Assignment.merge windyRain dryPark).names,
    name ∉ outingOracle.utilities.layout.names → name = "Wind" := by decide +kernel
  have again := reply_after build_outing made_outing [.expectedUtility rain dryPark]
    (.expectedUtility rain dryPark)
  have windy := reply_after build_outing made_outing [.expectedUtility rain dryPark]
    (.expectedUtility windyRain dryPark)
  refine ⟨again.1 ?_, ?_⟩
  · rintro _ ⟨⟩ overlooked
    exact overlooked.1 covers
  · obtain ⟨value, name, named, unknown, kept, told, refused⟩ := windy.2 _ rfl
      ⟨stranger, reads, ⟨_, List.mem_singleton_self _, congrArg some without.symm⟩, by
        rw [without, (new_of_ofDiagram made_outing).diagram, worth]
        rfl⟩
    obtain rfl := only name named unknown
    rw [without, worth] at kept
    cases kept
    exact ⟨told, refused⟩

end Oracle

end Counsel
