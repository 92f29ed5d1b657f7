/-
Partially sighted experts. What such an expert has worked out is what its questions are worth to the
diagram (`SightedExpert.Faithful`), so its answers do not depend on what it was asked before: an action is
worth what it is worth given the visible part of the state (`value_settles`), and the advice is the first
joint action that is worth most (`best_settles`).
-/
import Counsel.Expert.Basic
import Counsel.Proofs.Oracle.Faithful

namespace Counsel

open Outcome

variable {α : Type} [Scalar α] {d : Diagram α} {made : Oracle α} {state action : Assignment}

theorem Gate.config_observe (gate : Gate α) (optimal agent : α) :
    (gate.observe optimal agent).2.config = gate.config := by
  unfold Gate.observe
  simp only
  split
  · rfl
  · split <;> rfl

theorem Gate.reset_observe (gate : Gate α) (optimal agent : α) :
    (gate.observe optimal agent).2.reset = gate.reset :=
  congrArg Gate.start (config_observe gate optimal agent)

namespace SightedExpert

variable {like expert : SightedExpert α}

/-! ## Valuing an action -/

/-- What an expert sees of a state, and an action. -/
def view (expert : SightedExpert α) (state action : Assignment) : Assignment :=
  Assignment.merge (expert.visible.restrict state) action

/-- Valuing an action is refused, or gives the value that is kept, or asks the oracle, which refuses or
gives a value, which is kept. -/
theorem value_cases (expert : SightedExpert α) (oracle : Oracle α) (state action : Assignment) :
    (∃ e, expert.values.layout.indexOf (expert.view state action) = .error e ∧
      answer (value state action) (expert, oracle) = (.error (.layout e), expert, oracle)) ∨
    (∃ x, expert.values.get (expert.view state action) = .ok (some x) ∧
      answer (value state action) (expert, oracle) = (.ok x, expert, oracle)) ∨
    ∃ i, expert.values.layout.indexOf (expert.view state action) = .ok i ∧
      expert.values.get (expert.view state action) = .ok none ∧
      ((∃ e later, answer (Oracle.expectedUtility (expert.visible.restrict state) action) oracle =
          (.error e, later) ∧
        answer (value state action) (expert, oracle) = (.error e, expert, later)) ∨
      ∃ x later, answer (Oracle.expectedUtility (expert.visible.restrict state) action) oracle =
          (.ok x, later) ∧
        answer (value state action) (expert, oracle) =
          (.ok x, { expert with values := expert.values.setAt i (some x) }, later)) := by
  unfold view
  rw [value, answer_get_bind]
  simp only
  rcases at_i : expert.values.layout.indexOf (Assignment.merge (expert.visible.restrict state) action)
    with e | i
  · rw [StateTable.get_of_error at_i]
    exact .inl ⟨e, rfl, rfl⟩
  · obtain ⟨content, -, read⟩ := StateTable.get_of_indexOf at_i
    rw [read, Step.ofLayout_ok, pure_bind]
    cases content with
    | some x => exact .inr (.inl ⟨x, rfl, rfl⟩)
    | none =>
      refine .inr (.inr ⟨i, rfl, rfl, ?_⟩)
      simp only
      rw [answer_bind, Consult.ask, Step.answer_within]
      rcases answer (Oracle.expectedUtility (expert.visible.restrict state) action) oracle
        with ⟨e | x, later⟩
      · exact .inl ⟨e, later, rfl, rfl⟩
      · obtain ⟨old, written⟩ := StateTable.set_of_indexOf at_i (some x)
        refine .inr ⟨x, later, rfl, ?_⟩
        simp only [written]
        rfl

/-! ## What is worked out -/

/-- An expert that differs from another one in what it has worked out at most, and has worked out nothing
but what the diagram says. -/
structure Faithful (made : Oracle α) (like expert : SightedExpert α) : Prop where
  same : { expert with values := like.values } = like
  inside : ∀ name ∈ like.visible.names, name ∈ made.states.names
  joined : like.visible.join made.actions = .ok like.values.layout
  layout : expert.values.layout = like.values.layout
  values : ∀ i value, expert.values.at? i = some (some value) →
    ∀ key, like.values.layout.Covers key → like.values.layout.indexOf key = .ok i →
      made.diagram.worth? key = some value

/-- An expert and an oracle that can be relied on. -/
structure Ready (made : Oracle α) (like : SightedExpert α) (both : SightedExpert α × Oracle α) :
    Prop where
  expert : Faithful made like both.1
  oracle : Oracle.Faithful made both.2

/-- What an action is worth given what an expert sees of a state. -/
def worth? (made : Oracle α) (expert : SightedExpert α) (state action : Assignment) : Option α :=
  let key := Assignment.merge (expert.visible.restrict state) action
  (expert.values.layout.indexOf key).toOption.bind fun _ => made.diagram.worth? key

theorem Faithful.gate (faithful : Faithful made like expert) : expert.gate = like.gate :=
  show ({ expert with values := like.values } : SightedExpert α).gate = like.gate by
    rw [faithful.same]

theorem Faithful.visible (faithful : Faithful made like expert) : expert.visible = like.visible :=
  show ({ expert with values := like.values } : SightedExpert α).visible = like.visible by
    rw [faithful.same]

theorem Faithful.view (faithful : Faithful made like expert) (state action : Assignment) :
    expert.view state action = like.view state action := by
  rw [SightedExpert.view, faithful.visible]
  rfl

/-- An expert with another gate. -/
theorem Faithful.with_gate (faithful : Faithful made like expert) (gate : Gate α) :
    Faithful made { like with gate } { expert with gate } :=
  ⟨congrArg (fun e : SightedExpert α => { e with gate }) faithful.same, faithful.inside,
    faithful.joined, faithful.layout, faithful.values⟩

/-- What is worked out for a key may be put into its cell. -/
theorem Faithful.work_out (faithful : Faithful made like expert) {key : Assignment} {i : Nat} {x : α}
    (covers : like.values.layout.Covers key) (found : like.values.layout.indexOf key = .ok i)
    (worth : made.diagram.worth? key = some x) :
    Faithful made like { expert with values := expert.values.setAt i (some x) } := by
  refine { faithful with values := fun j y there other covers' index => ?_ }
  rw [StateTable.at?_setAt (faithful.layout ▸ Layout.indexOf_lt found)] at there
  split at there
  next here =>
    cases there
    rw [covers'.eq_of_indexOf covers index (here ▸ found), worth]
  next => exact faithful.values j y there other covers' index

/-- The oracle can be asked about what an expert sees. -/
theorem Faithful.covers_joint (faithful : Faithful made like expert) (new : made.New d)
    {key : Assignment} (covers : like.values.layout.Covers key) :
    made.utilities.layout.Covers key := by
  intro name value held
  have named := covers name value held
  rw [Layout.names_of_join faithful.joined, List.mem_append] at named
  rw [Layout.names_of_join new.joined, List.mem_append]
  exact named.imp_left (faithful.inside name)

/-- An expert tells what an action is worth given what it sees. -/
theorem value_settles (h : d.WellFormed) (new : made.New d) (covers : made.actions.Covers action) :
    Settles (Ready made like) (value state action) (worth? made like state action) := by
  rintro ⟨expert, oracle⟩ ⟨faithful, reliable⟩
  have faithful : Faithful made like expert := faithful
  have covers : like.values.layout.Covers (like.view state action) :=
    (Layout.covers_restrict state).merge faithful.joined covers
  obtain ⟨worth, after⟩ := reliable.expectedUtility h new (expert.visible.restrict state) action
  rw [← view, faithful.view] at worth
  have worth := worth (faithful.covers_joint new covers)
  rw [← new.diagram] at worth
  have value_eq := value_cases expert oracle state action
  rw [faithful.layout, faithful.view] at value_eq
  rw [worth?, ← view]
  rcases value_eq with ⟨e, at_e, ran⟩ | ⟨x, held, ran⟩ |
    ⟨i, at_i, -, ⟨e, later, told, ran⟩ | ⟨x, later, told, ran⟩⟩
  · rw [ran, at_e]
    exact ⟨rfl, faithful, reliable⟩
  · obtain ⟨i, at_i, there⟩ := StateTable.held_of_get held
    rw [faithful.layout] at at_i
    rw [ran, at_i]
    exact ⟨(faithful.values i x there _ covers at_i).symm, faithful, reliable⟩
  · rw [told] at worth after
    rw [ran, at_i]
    exact ⟨worth, faithful, after⟩
  · rw [told] at worth after
    rw [ran, at_i]
    exact ⟨worth, faithful.work_out covers at_i worth.symm, after⟩

/-- The better of two actions that are worth something. -/
def consider (made : Oracle α) (expert : SightedExpert α) (state : Assignment)
    (best : Option (Assignment × α)) (action : Assignment) : Option (Option (Assignment × α)) :=
  (betterAction best action ·) <$> worth? made expert state action

/-- The first joint action that is worth most, and its worth, from what the diagram says. -/
def choice? (made : Oracle α) (expert : SightedExpert α) (state : Assignment) :
    Option (Assignment × α) :=
  (made.actions.assignments.foldlM (consider made expert state) none).map (·.getD (.empty, 0))

/-- An expert chooses the first joint action that is worth most given what it sees. -/
theorem best_settles (h : d.WellFormed) (new : made.New d) (state : Assignment) :
    Settles (Ready made like) (best state) (choice? made like state) := by
  refine Settles.read_bind fun both ready => ?_
  rw [ready.oracle.actions]
  rw [choice?, Option.map_eq_bind]
  refine Settles.bind (Settles.foldlM (fun action listed best => ?_) none) fun best _ => .pure _
  exact (value_settles h new (Layout.covers_of_mem_assignments listed)).map

/-! ## Advice -/

theorem advise_settles (h : d.WellFormed) (new : made.New d) (state : Assignment) :
    Settles (Ready made like) (advise state) ((choice? made like state).map (·.1)) :=
  (best_settles h new state).map

/-- The advice, its worth and that of an action taken. -/
def weigh (state action : Assignment) : Consult α (SightedExpert α) ((Assignment × α) × α) := do
  let best ← best state
  return (best, ← value state action)

/-- The advice, if the gate opens at what was weighed. -/
def speak (weighed : (Assignment × α) × α) : Consult α (SightedExpert α) (Option Assignment) := do
  let opened ← Consult.update fun expert =>
    let (opened, gate) := expert.gate.observe weighed.1.2 weighed.2
    (opened, { expert with gate })
  return if opened then some weighed.1.1 else none

theorem deliberate_eq (state action : Assignment) :
    deliberate (α := α) state action = weigh state action >>= speak := by
  rw [weigh, bind_assoc]
  simp only [bind_assoc, pure_bind]
  rfl

/-- What an expert weighs, from what the diagram says. -/
def weighed? (made : Oracle α) (expert : SightedExpert α) (state action : Assignment) :
    Option ((Assignment × α) × α) :=
  (choice? made expert state).bind fun best => (worth? made expert state action).map (best, ·)

/-- What comes of a deliberation, from what the diagram says: the advice, if the gate opens, and the gate
then. -/
def deliberation (made : Oracle α) (expert : SightedExpert α) (state action : Assignment) :
    Option (Option Assignment) × Gate α :=
  match weighed? made expert state action with
  | none => (none, expert.gate)
  | some weighed =>
    let (opened, gate) := expert.gate.observe weighed.1.2 weighed.2
    (some (if opened then some weighed.1.1 else none), gate)

theorem config_deliberation (made : Oracle α) (expert : SightedExpert α) (state action : Assignment) :
    (deliberation made expert state action).2.config = expert.gate.config := by
  unfold deliberation
  cases weighed? made expert state action with
  | none => rfl
  | some weighed => exact Gate.config_observe ..

/-- An expert that deliberates changes its gate, and works out what it needs. -/
theorem deliberate_spec (h : d.WellFormed) (new : made.New d) (covers : made.actions.Covers action)
    (state : Assignment) {both : SightedExpert α × Oracle α} (ready : Ready made like both) :
    (answer (deliberate state action) both).1.toOption = (deliberation made like state action).1 ∧
      Ready made { like with gate := (deliberation made like state action).2 }
        (answer (deliberate state action) both).2 := by
  have weighing : Settles (Ready made like) (weigh state action) (weighed? made like state action) :=
    (best_settles h new state).bind fun best _ => (value_settles h new covers).map
  obtain ⟨told, after⟩ := weighing both ready
  rw [deliberate_eq, answer_bind, deliberation, ← told]
  rcases ran : answer (weigh state action) both with ⟨e | weighed, expert, oracle⟩
  · rw [ran] at after
    exact ⟨rfl, after⟩
  · rw [ran] at after
    obtain ⟨faithful, reliable⟩ := after
    show (some (if (expert.gate.observe _ _).1 = true then _ else _) =
      some (if (like.gate.observe _ _).1 = true then _ else _)) ∧
      Ready made { like with gate := (like.gate.observe weighed.1.2 weighed.2).2 }
        ({ expert with gate := (expert.gate.observe weighed.1.2 weighed.2).2 }, oracle)
    rw [faithful.gate]
    exact ⟨rfl, faithful.with_gate _, reliable⟩

/-! ## Any use -/

/-- An expert as it is made, with nothing worked out. -/
theorem faithful_of_ofHidden {name : String} {hidden : List String} {disclosure : DisclosureConfig α}
    (made_of : ofHidden name hidden made.states made.actions disclosure = .ok expert) :
    Faithful made expert expert ∧
      expert.visible.places = made.states.places.filter fun p => !hidden.contains p.1 := by
  unfold ofHidden at made_of
  simp only at made_of
  split at made_of
  next => cases made_of
  next =>
    split at made_of
    next => cases made_of
    next visible joint laid =>
      obtain ⟨visible', seen, laid⟩ := bind_eq_ok.1 laid
      obtain ⟨joint', joined, laid⟩ := bind_eq_ok.1 laid
      cases laid
      cases made_of
      have places := Layout.ofPlaces_eq_ok seen
      refine ⟨⟨rfl, fun name named => ?_, joined, rfl, fun _ _ held => ?_⟩, places⟩
      · obtain ⟨place, mem, rfl⟩ := List.mem_map.1 named
        rw [places] at mem
        exact List.mem_map_of_mem (List.mem_of_mem_filter mem)
      · exact absurd held StateTable.not_held_replicate

/-- What comes about, beside an oracle, from an expert that was made, whatever it was asked about actions
over the decision variables and whatever the oracle was asked. -/
inductive Arises (made : Oracle α) (fresh : SightedExpert α) : SightedExpert α × Oracle α → Prop
  | fresh : Arises made fresh (fresh, made)
  | advised {both : SightedExpert α × Oracle α} (state : Assignment) (arises : Arises made fresh both) :
      Arises made fresh (answer (advise state) both).2
  | deliberated {both : SightedExpert α × Oracle α} (state : Assignment) {action : Assignment}
      (covers : made.actions.Covers action) (arises : Arises made fresh both) :
      Arises made fresh (answer (deliberate state action) both).2
  | reset {expert : SightedExpert α} {oracle : Oracle α} (arises : Arises made fresh (expert, oracle)) :
      Arises made fresh (expert.reset, oracle)
  | beside {expert : SightedExpert α} {oracle other : Oracle α}
      (arises : Arises made fresh (expert, oracle)) (used : made.Arises other) :
      Arises made fresh (expert, other)

/-- However an expert was used, it can be relied on; its gate may have changed. -/
theorem Arises.ready (h : d.WellFormed) (new : made.New d) {fresh : SightedExpert α}
    (faithful : Faithful made fresh fresh) {both : SightedExpert α × Oracle α}
    (arises : Arises made fresh both) : ∃ gate, gate.config = fresh.gate.config ∧
      Ready made { fresh with gate } both := by
  induction arises with
  | fresh => exact ⟨fresh.gate, rfl, faithful, new.faithful⟩
  | advised state _ ih =>
    obtain ⟨gate, same, ready⟩ := ih
    exact ⟨gate, same, (advise_settles h new state _ ready).2⟩
  | deliberated state covers _ ih =>
    obtain ⟨gate, same, ready⟩ := ih
    exact ⟨_, (config_deliberation ..).trans same, (deliberate_spec h new covers state ready).2⟩
  | reset _ ih =>
    obtain ⟨gate, same, ready⟩ := ih
    refine ⟨gate.reset, same, ?_, ready.oracle⟩
    rw [SightedExpert.reset, ready.expert.gate]
    exact ready.expert.with_gate gate.reset
  | beside _ used ih =>
    obtain ⟨gate, same, ready⟩ := ih
    exact ⟨gate, same, ready.expert, used.faithful h new⟩

end SightedExpert

end Counsel
