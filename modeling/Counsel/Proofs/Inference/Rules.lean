/-
The rules of a solution as a policy. A rule chooses, under slots that hold a world on what it reads,
the position that it names in the world (`choose_of_holds`); so taking the decisions in turn gives the
positions that following the rules leads to (`choices_of_known`). The rules that a sweep makes read what
their decisions observe (`sensible_sweep`). The rules of a solution, one for each decision without
evidence (`ruled_of_optimize`), make up a policy (`policyOf`), and acting on the solution is playing that
policy (`act_eq_play`). So a solution without observations takes every decision of the diagram, at a
position of its domain (`exists_act`).
-/
import Counsel.Proofs.Factor.Pool
import Counsel.Proofs.Inference.Policy

namespace Counsel

open Outcome EliminationOrder Evaluate

variable {α : Type} [Scalar α] {vars : List Variable} {nodes : Factor α → Prop}

/-- The position that a rule chooses in a world. -/
def DecisionRule.position {α : Type} [Scalar α] (rule : DecisionRule α) (x : World) : Nat :=
  rule.factor.elim 0 fun f => (f.cellIn x).2

/-- A rule chooses the position that it names in the world that the slots hold. -/
theorem DecisionRule.choose_of_holds (graph : Factor.Graph vars nodes) {rule : DecisionRule α}
    (members : ∀ f ∈ rule.factor, nodes f) {e : Evaluation α} {x : World} (range : x.InRange vars)
    (within : e.slots.Within vars) (sound : e.memo.Sound vars nodes)
    (holds : ∀ f ∈ rule.factor, e.slots.Holds f.scope.ids x) :
    ∃ after, answer rule.choose e = (.ok (rule.position x), after) ∧ after.slots.Same e.slots ∧
      after.memo.Sound vars nodes := by
  obtain ⟨decision, factor⟩ := rule
  cases factor with
  | none => exact ⟨e, rfl, .refl _, sound⟩
  | some f =>
    have hf : nodes f := members f rfl
    unfold choose position
    simp only [Option.elim_some]
    cases f with
    | table head values => exact ⟨e, by rw [Factor.cellIn]; rfl, .refl _, sound⟩
    | observed head base evidence => exact ⟨e, by rw [Factor.cellIn]; rfl, .refl _, sound⟩
    | sum head axis parts => exact ⟨e, by rw [Factor.cellIn]; rfl, .refl _, sound⟩
    | max head axis base =>
      obtain ⟨after, ha, same, sound'⟩ := Factor.memoCell_spec graph hf e within sound
      rw [Factor.cell_of_holds graph.inj (graph.built _ hf) range (holds _ rfl)] at ha
      refine ⟨after, ?_, same, sound'⟩
      have argmax : answer (Factor.memoArgmax (.max head axis base)) e =
          (.ok (some ((Factor.max head axis base).cellIn x).2), after) := by
        show answer (Factor.memoCell (.max head axis base) >>= fun c => pure (some c.2)) e = _
        rw [answer_bind_of_ok ha]
        rfl
      rw [answer_bind_of_ok argmax]
      rfl

namespace Solution

/-- The world after following some rules in turn. -/
def follow : List (DecisionRule α) → World → World
  | [], x => x
  | rule :: rest, x => follow rest (Function.update x rule.decision.id (rule.position x))

theorem follow_append (rules more : List (DecisionRule α)) (x : World) :
    follow (rules ++ more) x = follow more (follow rules x) := by
  induction rules generalizing x with
  | nil => rfl
  | cons rule rest ih => exact ih _

theorem follow_of_notMem {rules : List (DecisionRule α)} {id : VarId} (x : World)
    (h : id ∉ rules.map (·.decision.id)) : follow rules x id = x id := by
  induction rules generalizing x with
  | nil => rfl
  | cons rule rest ih =>
    rw [List.map_cons, List.mem_cons, not_or] at h
    rw [follow, ih _ h.2, Function.update_of_ne h.1]

/-- Under slots that hold a world on what the rules read, but for the decisions taken before, the choices
are the positions that following the rules leads to. -/
theorem choices_of_known (graph : Factor.Graph vars nodes) {rules : List (DecisionRule α)}
    (nodup : (rules.map (·.decision.id)).Nodup)
    (proper : ∀ rule ∈ rules, rule.decision ∈ vars ∧ (∀ f ∈ rule.factor, nodes f) ∧
      ∀ x, rule.position x < rule.decision.card)
    {known : VarId → Prop} (reads : ∀ pre rule post, rules = pre ++ rule :: post →
      ∀ f ∈ rule.factor, ∀ id ∈ f.scope.ids, known id ∨ id ∈ pre.map (·.decision.id))
    {e : Evaluation α} {x : World} (range : x.InRange vars) (within : e.slots.Within vars)
    (sound : e.memo.Sound vars nodes) (held : ∀ id, known id → e.slots.get? id = some (x id)) :
    ∃ after, answer (choices rules) e =
      (.ok (rules.map fun rule => (rule.decision.id, follow rules x rule.decision.id)), after) := by
  induction rules generalizing known e x with
  | nil => exact ⟨e, rfl⟩
  | cons rule rest ih =>
    obtain ⟨hv, members, lt⟩ := proper rule List.mem_cons_self
    rw [List.map_cons, List.nodup_cons] at nodup
    have holds : ∀ f ∈ rule.factor, e.slots.Holds f.scope.ids x := by
      intro f hf id hid
      exact held id ((reads [] rule rest rfl f hf id hid).resolve_right (by simp))
    obtain ⟨mid, chosen, same, sound'⟩ := rule.choose_of_holds graph members range within sound holds
    have lt := lt x
    -- the rules that follow may read the decision just taken as well
    obtain ⟨after, ha⟩ := @ih nodup.2 (fun r hr => proper r (List.mem_cons_of_mem _ hr))
      (fun id => known id ∨ id = rule.decision.id)
      (by
        intro pre r post split f hf id hid
        have seen := reads (rule :: pre) r post (by rw [split]; rfl) f hf id hid
        rw [List.map_cons, List.mem_cons] at seen
        rcases seen with k | e | k
        · exact .inl (.inl k)
        · exact .inl (.inr e)
        · exact .inr k)
      { mid with slots := mid.slots.set rule.decision.id (some (rule.position x)) }
      (Function.update x rule.decision.id (rule.position x)) (range.update graph.inj hv lt)
      ((same.symm.within within).set graph.inj hv lt) sound'
      (by
        intro id k
        rw [Slots.get?_set]
        split
        next e => rw [← e, Function.update_self]
        next ne =>
          rw [Function.update_of_ne (Ne.symm ne), same id]
          exact held id (k.resolve_right (Ne.symm ne)))
    refine ⟨after, ?_⟩
    rw [choices, answer_bind_of_ok chosen, answer_bind_of_ok (answer_assign _ _ mid), answer_bind_of_ok ha,
      List.map_cons, follow, follow_of_notMem _ nodup.1, Function.update_self]
    rfl

end Solution

namespace Diagram

variable {d : Diagram α} {evidence : Slots} {rules : List (DecisionRule α)}

/-! ## Sensible rules -/

/-- A rule reads live variables that its decision observes, and names positions of the decision. -/
structure Sensible (d : Diagram α) (live : VarId → Prop) (rule : DecisionRule α) : Prop where
  mem : rule.decision ∈ d.vars
  kind : rule.decision.kind = .decision
  built : ∀ f ∈ rule.factor, Factor.Built d.vars f
  reads : ∀ f ∈ rule.factor, ∀ id ∈ f.scope.ids, id ∈ rule.decision.parents ∧ live id
  lt : ∀ x, rule.position x < rule.decision.card

section Sweep

variable {live other : VarId → Prop} {carriers n m : Nat}

theorem Sensible.mono {rule : DecisionRule α} (h : d.Sensible live rule)
    (sub : ∀ id, live id → other id) : d.Sensible other rule :=
  { h with reads := fun f hf id hid => ⟨(h.reads f hf id hid).1, sub id (h.reads f hf id hid).2⟩ }

/-- A rule names one position in worlds that agree on what it reads. -/
theorem Sensible.position_congr {rule : DecisionRule α} (h : d.Sensible live rule) {x y : World}
    (agree : ∀ f ∈ rule.factor, ∀ id ∈ f.scope.ids, x id = y id) :
    rule.position x = rule.position y := by
  unfold DecisionRule.position
  cases hf : rule.factor with
  | none => rfl
  | some f => rw [Option.elim_some, Option.elim_some, Factor.cellIn_congr (h.built f hf) (agree f hf)]

/-- Maximising a decision out keeps a sensible rule for it. -/
theorem Stage.sensible_maximise (h : d.WellFormed) {state state' : Elimination α}
    (stage : d.Stage live carriers nodes n state.factors) {v : Variable} (hv : v ∈ d.vars)
    (decision : v.kind = .decision) (run : answer (Diagram.maximise state v) n = (.ok state', m)) :
    ∃ rule, state'.rules = state.rules ++ [rule] ∧ d.Sensible live rule := by
  rcases maximise_cases run with ⟨-, -, rfl⟩ | ⟨-, base, best, one, inside, made, rfl⟩
  · exact ⟨⟨v, none⟩, rfl, hv, decision, by simp, by simp, fun _ => h.card_pos hv⟩
  · obtain ⟨hbase, -⟩ := (mentioning_one one).2 rfl
    refine ⟨⟨v, some best⟩, rfl, hv, decision, ?_, ?_,
      Factor.position_lt_of_maxOut made (h.card_pos hv)⟩
    · rintro f ⟨⟩
      exact .max hv (stage.built base (stage.members base hbase)) made
    · rintro f ⟨⟩ id hid
      obtain ⟨hid, ne⟩ := (Factor.mem_maxOut_ids made id).1 hid
      have alive := stage.live_of_mem base hbase id hid
      obtain ⟨u, hu, rfl⟩ := Scope.mem_ids.1 hid
      exact ⟨(inside u hu).resolve_left ne, alive⟩

/-- The rules that a sweep makes are sensible. -/
theorem sensible_sweep (h : d.WellFormed) {vars : List Variable} (sub : ∀ v ∈ vars, v ∈ d.vars)
    {before after : Elimination α} (stage : d.Stage live carriers nodes n before.factors)
    (run : answer (vars.foldlM sweepOne before) n = (.ok after, m)) :
    ∃ made, after.rules = before.rules ++ made ∧ ∀ rule ∈ made, d.Sensible live rule := by
  induction vars generalizing live nodes n before with
  | nil =>
    cases run
    exact ⟨[], by simp, by simp⟩
  | cons v rest ih =>
    rw [List.foldlM_cons, answer_bind_ok] at run
    obtain ⟨mid, k, first, run⟩ := run
    have hv := sub v List.mem_cons_self
    have hrest : ∀ u ∈ rest, u ∈ d.vars := fun u hu => sub u (List.mem_cons_of_mem _ hu)
    unfold sweepOne at first
    split at first
    next kind =>
      obtain ⟨rule, rules, sensible⟩ := stage.sensible_maximise h hv (isDecision_iff.1 kind) first
      obtain ⟨nodes', stage', -⟩ := stage.maximise hv first
      obtain ⟨made, e, others⟩ := ih hrest stage' run
      refine ⟨rule :: made, by rw [e, rules, List.append_assoc, List.singleton_append], ?_⟩
      exact List.forall_mem_cons.2 ⟨sensible, fun r hr => (others r hr).mono fun _ k => k.1⟩
    next =>
      obtain ⟨gs, l, eliminated, e⟩ := answer_bind_ok.1 first
      cases e
      obtain ⟨nodes', stage', -⟩ := stage.eliminate hv eliminated
      obtain ⟨made, e, sensible⟩ := ih hrest stage' run
      exact ⟨made, e, fun r hr => (sensible r hr).mono fun _ k => k.1⟩

end Sweep

/-! ## The policy of some rules -/

/-- One rule for each decision without evidence, in the order in which they are made, each reading
what its decision observes. -/
structure Ruled (d : Diagram α) (evidence : Slots) (rules : List (DecisionRule α)) : Prop where
  listed : rules.map (·.decision.id) = openDecisions d evidence
  sensible : ∀ rule ∈ rules, d.Sensible (d.Active evidence) rule

/-- The rule for a decision. -/
def ruleFor (rules : List (DecisionRule α)) (id : VarId) : Option (DecisionRule α) :=
  rules.find? (·.decision.id == id)

omit [Scalar α] in
theorem mem_of_ruleFor {id : VarId} {rule : DecisionRule α} (h : ruleFor rules id = some rule) :
    rule ∈ rules ∧ rule.decision.id = id :=
  ⟨List.mem_of_find?_eq_some h, by simpa using List.find?_some h⟩

omit [Scalar α] in
theorem ruleFor_eq_none {id : VarId} :
    ruleFor rules id = none ↔ ∀ rule ∈ rules, rule.decision.id ≠ id := by
  simp [ruleFor]

omit [Scalar α] in
theorem ruleFor_eq (nodup : (rules.map (·.decision.id)).Nodup) {rule : DecisionRule α}
    (hr : rule ∈ rules) : ruleFor rules rule.decision.id = some rule :=
  (find?_key nodup).2 ⟨hr, rfl⟩

/-- The policy that follows some rules; a decision without a rule takes its first value. -/
def policyOf (h : d.WellFormed) (sensible : ∀ rule ∈ rules, d.Sensible (d.Active evidence) rule) :
    d.Policy where
  choose id x := (ruleFor rules id).elim 0 (·.position x)
  informed D hD decision x y agree := by
    cases found : ruleFor rules D.id with
    | none => rfl
    | some rule =>
      obtain ⟨hr, e⟩ := mem_of_ruleFor found
      have sound := sensible rule hr
      rw [← h.inj _ sound.mem D hD e] at agree
      exact sound.position_congr fun f hf id hid => agree id (sound.reads f hf id hid).1
  inDomain D hD decision x := by
    cases found : ruleFor rules D.id with
    | none => exact h.card_pos hD
    | some rule =>
      obtain ⟨hr, e⟩ := mem_of_ruleFor found
      have sound := sensible rule hr
      rw [← h.inj _ sound.mem D hD e]
      exact sound.lt x

theorem choose_policyOf (h : d.WellFormed)
    (sensible : ∀ rule ∈ rules, d.Sensible (d.Active evidence) rule)
    (nodup : (rules.map (·.decision.id)).Nodup) {rule : DecisionRule α} (hr : rule ∈ rules)
    (x : World) : (policyOf h sensible).choose rule.decision.id x = rule.position x := by
  show (ruleFor rules rule.decision.id).elim 0 (·.position x) = _
  rw [ruleFor_eq nodup hr, Option.elim_some]

theorem Ruled.nodup (h : d.WellFormed) (ruled : d.Ruled evidence rules) :
    (rules.map (·.decision.id)).Nodup := by
  rw [ruled.listed]
  exact (h.nodup_orderOf .decision).filter _

/-- Following the rules is playing their policy. -/
theorem follow_eq_play (h : d.WellFormed) (ruled : d.Ruled evidence rules) (x : World) :
    Solution.follow rules x = (policyOf h ruled.sensible).play evidence x := by
  unfold Policy.play
  rw [← ruled.listed, List.foldl_map]
  suffices part : ∀ some_rules : List (DecisionRule α), (∀ r ∈ some_rules, r ∈ rules) → ∀ y,
      Solution.follow some_rules y = some_rules.foldl (fun y rule => Function.update y rule.decision.id
        ((policyOf h ruled.sensible).choose rule.decision.id y)) y from part rules (fun _ => id) x
  intro some_rules sub
  induction some_rules with
  | nil => exact fun _ => rfl
  | cons rule rest ih =>
    intro y
    rw [Solution.follow, List.foldl_cons, ih fun r hr => sub r (List.mem_cons_of_mem _ hr),
      choose_policyOf h ruled.sensible (ruled.nodup h) (sub rule List.mem_cons_self)]

/-- What a rule reads is a chance variable or a decision with an earlier rule. -/
theorem Ruled.reads (h : d.WellFormed) (ruled : d.Ruled evidence rules)
    {pre post : List (DecisionRule α)} {rule : DecisionRule α} (split : rules = pre ++ rule :: post)
    {f : Factor α} (hf : f ∈ rule.factor) {id : VarId} (hid : id ∈ f.scope.ids) :
    (∃ v ∈ d.vars, v.id = id ∧ v.kind = .chance) ∨ id ∈ pre.map (·.decision.id) := by
  have sound := ruled.sensible rule (by rw [split]; simp)
  obtain ⟨observed, v, hv, rfl, part⟩ := sound.reads f hf id hid
  cases kind : v.kind with
  | chance => exact .inl ⟨v, hv, rfl, kind⟩
  | decision =>
    right
    have free := (takesPart_iff.1 part).1
    have hopen : v.id ∈ openDecisions d evidence :=
      mem_openDecisions.2 ⟨(mem_decisionOrder h hv).2 kind, free⟩
    have turn := ruled.listed
    rw [split, List.map_append, List.map_cons] at turn
    rw [← turn, List.mem_append, List.mem_cons] at hopen
    apply hopen.resolve_right
    rintro (e | later)
    · rw [e] at observed
      exact not_mem_own_parents h sound.mem observed
    · -- a decision with a later rule is not observed
      have k : d.Earlier rule.decision.id v.id := by
        have sub : (openDecisions d evidence).Sublist d.decisionOrder := List.filter_sublist
        refine List.Sublist.trans ?_ sub
        rw [← turn]
        exact ((List.singleton_sublist.2 later).cons_cons _).trans (List.sublist_append_right _ _)
      have unobserved := k.not_mem_parents h
      rw [h.parentsOf_eq sound.mem] at unobserved
      exact unobserved observed

/-- Acting on a solution is playing the policy of its rules. -/
theorem act_eq_play {nodes : Factor α → Prop} (h : d.WellFormed) {s : Solution α}
    (ruled : d.Ruled evidence s.rules) (graph : Factor.Graph d.vars nodes)
    (members : ∀ rule ∈ s.rules, ∀ f ∈ rule.factor, nodes f) {slots : Slots}
    (within : slots.Within d.vars)
    (known : ∀ v ∈ d.vars, v.kind = .chance → slots.isAssigned v.id = true) :
    s.act slots = .ok ((openDecisions d evidence).map fun D =>
      (D, (policyOf h ruled.sensible).play evidence slots.world D)) := by
  have range : slots.world.InRange d.vars := h.world_inRange within
  obtain ⟨after, ha⟩ := Solution.choices_of_known graph (ruled.nodup h)
    (fun rule hr => ⟨(ruled.sensible rule hr).mem, members rule hr, (ruled.sensible rule hr).lt⟩)
    (fun pre rule post split f hf id hid => ruled.reads h split hf hid)
    (e := ⟨slots, Memo.empty⟩) range within Memo.sound_empty
    (by
      rintro id ⟨v, hv, rfl, chance⟩
      obtain ⟨p, hp⟩ := Slots.isAssigned_iff.1 (known v hv chance)
      show slots.get? v.id = some ((slots.get? v.id).getD 0)
      rw [hp, Option.getD_some])
  have act : s.act slots = (answer (Solution.choices s.rules) ⟨slots, Memo.empty⟩).1 := rfl
  rw [act, ha, follow_eq_play h ruled, ← ruled.listed, List.map_map]
  rfl

/-! ## The rules of a solution -/

/-- The rules that a sweep has made, in the order in which the decisions are made. -/
theorem ruled_of_sweep (h : d.WellFormed) {order : EliminationOrder}
    (consistent : d.Consistent order.ids (d.requisiteChance evidence) evidence)
    {made : List (DecisionRule α)} (sensible : ∀ rule ∈ made, d.Sensible (d.Active evidence) rule)
    (decisions : made.map (·.decision) = (d.sweepOf evidence order).filter (·.isDecision)) :
    d.Ruled evidence (d.decisionOrder.filterMap (ruleFor made)) := by
  -- there is a rule for a decision exactly if it is not observed
  have found : ∀ id ∈ d.decisionOrder, (ruleFor made id).map (·.decision.id) =
      Option.guard (fun id => !evidence.isAssigned id) id := by
    intro id hid
    obtain ⟨D, hD, rfl, decision⟩ := h.mem_orderOf.1 hid
    have taken : D ∈ made.map (·.decision) ↔ evidence.isAssigned D.id = false := by
      rw [decisions, List.mem_filter, mem_participants h, isDecision_iff]
      constructor
      · exact fun k => (takesPart_iff.1 k.1.2.1).1
      · intro free
        have part : takesPart (d.requisiteChance evidence) evidence D = true :=
          takesPart_iff.2 ⟨free, .inl decision⟩
        exact ⟨⟨hD, part, consistent.complete D hD part⟩, decision⟩
    cases found : ruleFor made D.id with
    | some rule =>
      obtain ⟨hr, e⟩ := mem_of_ruleFor found
      have free := taken.1 (List.mem_map.2 ⟨rule, hr, h.inj _ (sensible rule hr).mem D hD e⟩)
      rw [Option.map_some, e, eq_comm, Option.guard_eq_some_iff]
      exact ⟨rfl, by simp [free]⟩
    | none =>
      rw [Option.map_none, eq_comm, Option.guard_eq_none_iff]
      have assigned : evidence.isAssigned D.id ≠ false := by
        intro free
        obtain ⟨rule, hr, e⟩ := List.mem_map.1 (taken.2 free)
        exact ruleFor_eq_none.1 found rule hr (congrArg _ e)
      simpa using assigned
  constructor
  · rw [List.map_filterMap, openDecisions, ← List.filterMap_eq_filter]
    exact List.filterMap_congr found
  · intro rule hr
    obtain ⟨id, -, hr⟩ := List.mem_filterMap.1 hr
    exact sensible rule (mem_of_ruleFor hr).1

/-- The rules of a solution, and the factors that they are read off. -/
theorem ruled_of_optimize (h : d.WellFormed) {observations : Assignment} {order : EliminationOrder}
    (valid : d.slotsOf observations = .ok evidence) {n m : Nat} {s : Solution α}
    (run : answer (d.optimize order observations) n = (.ok s, m)) :
    d.Ruled evidence s.rules ∧
      ∃ nodes, Factor.Graph d.vars nodes ∧ ∀ rule ∈ s.rules, ∀ f ∈ rule.factor, nodes f := by
  obtain ⟨consistent, gs, k, nodes, state, l, -, stage, -, swept, ended⟩ :=
    sweep_of_accepted h valid (.inl ⟨s, congrArg Prod.fst run⟩)
  rw [ended] at run
  obtain ⟨nodes', last, -⟩ := stage_sweep (sweepOf_sub h) stage swept
  obtain ⟨made, rules, decisions, members⟩ := last.rules
  obtain ⟨made', rules', sensible⟩ := sensible_sweep h (sweepOf_sub h) stage swept
  have same : made' = made := rules'.symm.trans rules
  have kept : s.rules = d.decisionOrder.filterMap (ruleFor made) := by
    obtain ⟨u, j, -, concluded⟩ := answer_bind_ok.1 run
    cases concluded
    rw [show state.rules = made from rules]
    rfl
  refine ⟨kept ▸ ruled_of_sweep h consistent (same ▸ sensible) decisions, nodes', last.toGraph, ?_⟩
  intro rule hr
  rw [kept] at hr
  obtain ⟨id, -, found⟩ := List.mem_filterMap.1 hr
  exact members rule (mem_of_ruleFor found).1

omit [Scalar α] in
theorem openDecisions_empty : openDecisions d Slots.empty = d.decisionOrder :=
  List.filter_eq_self.2 fun id _ => by rw [Slots.isAssigned, Slots.get?_empty]; rfl

/-- The rules of a solution without observations. -/
theorem ruled_of_solve (h : d.WellFormed) {n m : Nat} {s : Solution α}
    (run : answer (d.solve NameMap.empty) n = (.ok s, m)) :
    d.Ruled Slots.empty s.rules ∧
      ∃ nodes, Factor.Graph d.vars nodes ∧ ∀ rule ∈ s.rules, ∀ f ∈ rule.factor, nodes f := by
  have valid : d.slotsOf NameMap.empty = .ok Slots.empty := rfl
  unfold solve at run
  rw [valid, answer_bind_of_ok (answer_ofModel_ok Slots.empty n)] at run
  exact ruled_of_optimize h valid run

/-- A solution without observations takes every decision once the chance variables are known, each at the
position, in its domain, that following the rules leads to. -/
theorem exists_act (h : d.WellFormed) {n m : Nat} {s : Solution α}
    (run : answer (d.solve NameMap.empty) n = (.ok s, m)) {slots : Slots}
    (within : slots.Within d.vars)
    (known : ∀ v ∈ d.vars, v.kind = .chance → slots.isAssigned v.id = true) :
    ∃ chosen, s.act slots = .ok chosen ∧
      chosen = d.decisionOrder.map (fun D => (D, Solution.follow s.rules slots.world D)) ∧
      (slots.setAll chosen).Within d.vars := by
  obtain ⟨ruled, nodes, graph, members⟩ := ruled_of_solve h run
  refine ⟨_, act_eq_play h ruled graph members within known, ?_, within.setAll h.inj fun e he => ?_⟩
  · rw [openDecisions_empty, follow_eq_play h ruled]
  · obtain ⟨D, hD, rfl⟩ := List.mem_map.1 he
    obtain ⟨v, hv, rfl, decision, -⟩ := exists_of_mem_openDecisions h hD
    refine ⟨v, hv, rfl, ?_⟩
    rw [(play_settled h _ Slots.empty slots.world).chosen v.id hD]
    exact (policyOf h ruled.sensible).inDomain v hv decision _

end Diagram

end Counsel
