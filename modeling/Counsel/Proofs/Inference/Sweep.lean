/-
The elimination behind a solution. The tables and the utility with evidence filled in are a stage for
the variables that take part (`exists_start`); a sweep over participants leads to a stage without them
and keeps one rule for each decision (`stage_sweep`). With all participants swept nothing is left but
numbers, one of them with the utility (`optimize_eq_sweep`). So an order is not refused when each
decision depends on what it observes (`not_refused_of_inside`), and an order that is accepted was
consistent and was swept (`sweep_of_accepted`).
-/
import Counsel.Proofs.Inference.Elimination
import Counsel.Proofs.Inference.Orders

namespace Counsel.Diagram

open Outcome

variable {α : Type} {live : VarId → Prop} {nodes : Factor α → Prop} {n m : Nat}

/-- The order was followed to its end: there is a result, or the evidence has no probability. -/
def Accepted {β : Type} (result : Except InferenceError β) : Prop :=
  (∃ x, result = .ok x) ∨ result = .error .zeroEvidence

/-- The order was refused. -/
def Refused {β : Type} (result : Except InferenceError β) : Prop :=
  ∃ place fault, result = .error (.illegalOrder place fault)

theorem Accepted.not_refused {β : Type} {result : Except InferenceError β} (h : Accepted result) :
    ¬ Refused result := by
  rintro ⟨place, fault, rfl⟩
  rcases h with ⟨x, hx⟩ | zero
  · cases hx
  · cases zero

/-! ## Errors that a step does not raise -/

/-- A step does not fail in one of the given ways. -/
def Avoids {β : Type} (bad : InferenceError → Prop) (step : Infer β) : Prop :=
  ∀ n e, (answer step n).1 = .error e → ¬ bad e

variable {bad : InferenceError → Prop}

theorem Avoids.bind {β γ : Type} {step : Infer β} {next : β → Infer γ} (h : Avoids bad step)
    (k : ∀ b, Avoids bad (next b)) : Avoids bad (step >>= next) := by
  intro n e
  rw [answer_bind]
  have first := h n
  rcases ha : answer step n with ⟨r, m⟩
  rw [ha] at first
  cases r with
  | ok b => exact k b m e
  | error e' =>
    intro fails
    cases fails
    exact first _ rfl

theorem Avoids.pure {β : Type} (b : β) : Avoids bad (Pure.pure b : Infer β) := fun _ _ e => nomatch e

theorem Avoids.nextNumber : Avoids bad Infer.nextNumber := fun _ _ e => nomatch e

theorem Avoids.ofModel {β : Type} (fine : ∀ e, ¬ bad (.model e)) (result : Except ModelError β) :
    Avoids bad (Infer.ofModel result) := by
  intro n e fails
  cases result with
  | ok b => cases fails
  | error e' =>
    cases fails
    exact fine e'

theorem Avoids.mapM {β γ : Type} {step : β → Infer γ} (h : ∀ b, Avoids bad (step b)) (l : List β) :
    Avoids bad (l.mapM step) := by
  induction l with
  | nil => exact .pure _
  | cons b rest ih =>
    rw [List.mapM_cons]
    exact (h b).bind fun _ => ih.bind fun _ => .pure _

theorem Avoids.foldlM {β γ : Type} {step : β → γ → Infer β} (h : ∀ b c, Avoids bad (step b c))
    (l : List γ) (b : β) : Avoids bad (l.foldlM step b) := by
  induction l generalizing b with
  | nil => exact .pure b
  | cons c rest ih =>
    rw [List.foldlM_cons]
    exact (h b c).bind ih

theorem avoids_eliminate (fine : ∀ e, ¬ bad (.model e)) (fs : List (Factor α)) (v : Variable) :
    Avoids bad (eliminate fs v) := by
  unfold eliminate
  simp only [List.partition_eq_filter_filter]
  split
  · exact .pure _
  · exact Avoids.nextNumber.bind fun _ => (Avoids.ofModel fine _).bind fun _ => .pure _

theorem avoids_maximise (fine : ∀ e, ¬ bad (.model e))
    (legal : ∀ place fault, ¬ bad (.illegalOrder place fault)) (state : Elimination α) (v : Variable) :
    Avoids bad (maximise state v) := by
  have refusal : ∀ place fault,
      Avoids bad (throw (.illegalOrder place fault) : Infer (Elimination α)) := by
    intro place fault n e fails
    cases fails
    exact legal place fault
  unfold maximise
  simp only [List.partition_eq_filter_filter]
  split
  · exact .pure _
  · split
    · exact refusal _ _
    · exact Avoids.nextNumber.bind fun _ => (Avoids.ofModel fine _).bind fun _ => .pure _
  · exact refusal _ _

theorem avoids_sweepOne (fine : ∀ e, ¬ bad (.model e))
    (legal : ∀ place fault, ¬ bad (.illegalOrder place fault)) (state : Elimination α) (v : Variable) :
    Avoids bad (sweepOne state v) := by
  unfold sweepOne
  split
  · exact avoids_maximise fine legal state v
  · exact (avoids_eliminate fine state.factors v).bind fun _ => .pure _

/-! ## Sweeps -/

variable [Scalar α] {d : Diagram α} {evidence : Slots}

/-- Whether a variable takes part and can occur in a factor. -/
def Active (d : Diagram α) (evidence : Slots) (id : VarId) : Prop :=
  ∃ v ∈ d.vars, v.id = id ∧ takesPart (d.requisiteChance evidence) evidence v = true

/-- The tables that an elimination starts from. -/
def startTables (d : Diagram α) (evidence : Slots) : List (Factor α) :=
  d.markedFactors (d.requisiteChance evidence) ++ [d.utility]

/-- Requisite variables have their parents among the requisite ones. -/
theorem marked_requisite_closed (h : d.WellFormed) (admits : d.Admits evidence) :
    ∀ v ∈ d.chanceVars, Marked (d.requisiteChance evidence) v.id →
      ∀ p ∈ v.parents, Marked (d.requisiteChance evidence) p := by
  intro v hv marked p hp
  obtain ⟨hm, chance⟩ := mem_chanceVars.1 hv
  obtain ⟨u, hu, rfl, hk⟩ := h.parents v hm p hp
  rw [marked_requisite h admits.known hm] at marked
  rw [marked_requisite h admits.known hu]
  exact ⟨hk chance, marked.2.parent (by rw [h.parentsOf_eq hm]; exact hp)⟩

/-- Filling evidence into the tables and the utility starts an elimination. -/
theorem exists_start (h : d.WellFormed) (admits : d.Admits evidence) (n : Nat) :
    ∃ gs m nodes, answer (project (d.startTables evidence) evidence) n = (.ok gs, m) ∧
      d.Stage (d.Active evidence) 1 nodes m gs ∧
      List.Forall₂ (Projected evidence) (d.startTables evidence) gs := by
  have closed := marked_requisite_closed h admits
  have sub : ∀ f ∈ d.startTables evidence, f ∈ d.probabilityFactors ∨ f = d.utility := by
    intro f hf
    rcases List.mem_append.1 hf with hf | hf
    · exact .inl ((mem_markedFactors h).1 hf).1
    · exact .inr (List.mem_singleton.1 hf)
  have listed := listed_tables h n sub
  obtain ⟨gs, m, nodes, run, projected, listed', -⟩ := project_spec h admits.within listed
  refine ⟨gs, m, nodes, run, stage_of_projected h listed'
    (fun f hf => listed.built f (listed.members f hf)) projected ?_ ?_ ?_ (le_refl 1) ?_, projected⟩
  · -- a variable of a table that was kept, or of the utility, takes part unless it is observed
    intro f hf id hid free
    obtain ⟨u, hu, rfl⟩ := Scope.mem_ids.1 hid
    rcases List.mem_append.1 hf with hf | hf
    · obtain ⟨hc, marked⟩ := marked_of_markedFactors h closed hf hu
      exact ⟨u, (mem_chanceVars.1 hc).1, rfl, takesPart_iff.2 ⟨free, .inr marked⟩⟩
    · rw [List.mem_singleton.1 hf] at hid hu
      have hm := h.built_utility.1.mem_vars u hu
      refine ⟨u, hm, rfl, takesPart_iff.2 ⟨free, ?_⟩⟩
      cases hk : u.kind with
      | decision => exact .inl rfl
      | chance =>
        exact .inr ((marked_requisite h admits.known hm).2 ⟨hk, .target (List.mem_append_left _ hid)⟩)
  · rintro v hv hk ⟨u, hu, e, part⟩
    obtain rfl := h.inj u hu v hv e
    obtain ⟨free, decision | marked⟩ := takesPart_iff.1 part
    · rw [hk] at decision
      cases decision
    · obtain ⟨f, hf, hm⟩ := exists_markedFactor h (mem_chanceVars.2 ⟨hv, hk⟩) marked
      exact ⟨free, f, List.mem_append_left _ hf, hm⟩
  · rw [startTables, List.countP_append, List.countP_eq_zero.2 fun f hf => ?_, List.countP_singleton,
      h.carriesUtility_utility]
    · rfl
    · rw [carriesUtility_markedFactors h hf]
      exact Bool.false_ne_true
  · intro f hf plain u hu
    rcases List.mem_append.1 hf with hf | hf
    · exact (mem_chanceVars.1 (marked_of_markedFactors h closed hf hu).1).2
    · rw [List.mem_singleton.1 hf, h.carriesUtility_utility] at plain
      cases plain

/-- What a sweep leaves: a stage without the swept variables, and one rule more for each decision
among them, whose table is one of the factors of the run. -/
structure Swept (d : Diagram α) (live : VarId → Prop) (vars : List Variable) (nodes : Factor α → Prop)
    (next : Nat) (before after : Elimination α) : Prop
    extends Stage d (fun id => live id ∧ id ∉ vars.map (·.id)) 1 nodes next after.factors where
  rules : ∃ made, after.rules = before.rules ++ made ∧
    made.map (·.decision) = vars.filter (·.isDecision) ∧
    ∀ rule ∈ made, ∀ f ∈ rule.factor, nodes f

omit [Scalar α] in
theorem stage_sweep {vars : List Variable} (sub : ∀ v ∈ vars, v ∈ d.vars)
    {before after : Elimination α} (stage : d.Stage live 1 nodes n before.factors)
    (run : answer (vars.foldlM sweepOne before) n = (.ok after, m)) :
    ∃ nodes', d.Swept live vars nodes' m before after ∧ ∀ k, nodes k → nodes' k := by
  induction vars generalizing live nodes n before with
  | nil =>
    cases run
    exact ⟨nodes, ⟨by simpa using stage, [], by simp, rfl, by simp⟩, fun _ => id⟩
  | cons v rest ih =>
    rw [List.foldlM_cons, answer_bind_ok] at run
    obtain ⟨mid, k, first, run⟩ := run
    have hv := sub v List.mem_cons_self
    have hrest : ∀ u ∈ rest, u ∈ d.vars := fun u hu => sub u (List.mem_cons_of_mem _ hu)
    have same := live_cons live v rest
    unfold sweepOne at first
    split at first
    next decision =>
      obtain ⟨nodes', stage', grows, best, made, mem⟩ := stage.maximise hv first
      obtain ⟨nodes'', ⟨stage'', others, e, decisions, inGraph⟩, grows'⟩ := ih hrest stage' run
      refine ⟨nodes'', ⟨same ▸ stage'', ⟨v, best⟩ :: others, ?_, ?_, ?_⟩,
        fun f hf => grows' f (grows f hf)⟩
      · rw [e, made, List.append_assoc, List.singleton_append]
      · rw [List.map_cons, decisions, List.filter_cons_of_pos decision]
      · exact List.forall_mem_cons.2 ⟨fun f hf => grows' f (mem f hf), inGraph⟩
    next chance =>
      obtain ⟨gs, l, eliminated, made⟩ := answer_bind_ok.1 first
      cases made
      obtain ⟨nodes', stage', grows⟩ := stage.eliminate hv eliminated
      obtain ⟨nodes'', ⟨stage'', others, e, decisions, inGraph⟩, grows'⟩ := ih hrest stage' run
      refine ⟨nodes'', ⟨same ▸ stage'', others, e, ?_, inGraph⟩, fun f hf => grows' f (grows f hf)⟩
      rw [decisions, List.filter_cons_of_neg chance]

/-- A sweep stops at a decision that depends on what it does not observe, or at a variable that cannot be
summed out. -/
theorem sweep_stops (h : d.WellFormed) {vars : List Variable} (sub : ∀ v ∈ vars, v ∈ d.vars)
    {before : Elimination α} (stage : d.Stage live 1 nodes n before.factors) {e : InferenceError}
    (fails : answer (vars.foldlM sweepOne before) n = (.error e, m)) :
    ∃ pre v post state k nodes', vars = pre ++ v :: post ∧ v ∈ d.vars ∧
      answer (pre.foldlM sweepOne before) n = (.ok state, k) ∧
      d.Swept live pre nodes' k before state ∧
      ((v.kind = .decision ∧ ∃ base u, state.factors.filter (·.mentions v.id) = [base] ∧
          firstOutside v base = some u ∧ e = .illegalOrder v.name (.outside base.label u.name)) ∨
        v.kind = .chance ∧ answer (eliminate state.factors v) k = (.error e, m)) := by
  obtain ⟨pre, v, post, state, k, rfl, run, fails⟩ := answer_foldlM_error fails
  obtain ⟨nodes', swept, -⟩ := stage_sweep (fun u hu => sub u (List.mem_append_left _ hu)) stage run
  have hv := sub v (by simp)
  refine ⟨pre, v, post, state, k, nodes', rfl, hv, run, swept, ?_⟩
  unfold sweepOne at fails
  split at fails
  next decision =>
    have decision := isDecision_iff.1 decision
    exact .inl ⟨decision, maximise_error h swept.toStage hv decision fails⟩
  next chance =>
    refine .inr ⟨isDecision_eq_false.1 (Bool.not_eq_true _ ▸ chance), ?_⟩
    rw [answer_bind] at fails
    rcases ha : answer (eliminate state.factors v) k with ⟨r, l⟩
    rw [ha] at fails
    cases r with
    | ok _ => cases fails
    | error e' =>
      cases fails
      rfl

/-- Where the factors that mention a decision, when its turn comes, depend on nothing but it and its
parents, a sweep only fails where a variable cannot be summed out. -/
theorem sweep_error (h : d.WellFormed) {vars : List Variable} (sub : ∀ v ∈ vars, v ∈ d.vars)
    {before : Elimination α} (stage : d.Stage live 1 nodes n before.factors)
    (inside : ∀ pre D post, vars = pre ++ D :: post → D.kind = .decision → ∀ state k,
      answer (pre.foldlM sweepOne before) n = (.ok state, k) → ∀ f ∈ state.factors,
        D.id ∈ f.scope.ids → ∀ id ∈ f.scope.ids, id = D.id ∨ id ∈ D.parents)
    {e : InferenceError} (fails : answer (vars.foldlM sweepOne before) n = (.error e, m)) :
    ∃ (fs : List (Factor α)) (v : Variable) (k : Nat),
      (∀ f ∈ fs, Factor.Built d.vars f) ∧ (answer (eliminate fs v) k).1 = .error e := by
  obtain ⟨pre, v, post, state, k, nodes', split, -, run, swept, stopped⟩ := sweep_stops h sub stage fails
  rcases stopped with ⟨decision, base, u, one, outside, -⟩ | ⟨-, fails⟩
  · obtain ⟨hbase, mentions⟩ := (mentioning_one one).2 rfl
    rw [firstOutside_eq_none.2 fun u hu => inside pre v post split decision state k run base hbase mentions
      u.id (Scope.mem_ids.2 ⟨u, hu, rfl⟩)] at outside
    cases outside
  · exact ⟨state.factors, v, k, fun f hf => swept.built f (swept.members f hf), by rw [fails]⟩

/-! ## Solutions -/

/-- The variables that take part in the elimination along an order. -/
abbrev sweepOf (d : Diagram α) (evidence : Slots) (order : EliminationOrder) : List Variable :=
  d.participants (d.requisiteChance evidence) evidence order.ids

theorem sweepOf_sub (h : d.WellFormed) {order : EliminationOrder} :
    ∀ v ∈ d.sweepOf evidence order, v ∈ d.vars := fun _ hv => ((mem_participants h).1 hv).1

/-- With all participants swept, no variable is left and one factor carries the utility. -/
theorem Swept.residue (h : d.WellFormed) {order : EliminationOrder}
    (consistent : d.Consistent order.ids (d.requisiteChance evidence) evidence)
    {before after : Elimination α}
    (swept : d.Swept (d.Active evidence) (d.sweepOf evidence order) nodes n before after) :
    (∀ f ∈ after.factors, f.scope.vars = []) ∧ checkResidue after.factors = .ok () := by
  have empty : ∀ f ∈ after.factors, f.scope.vars = [] := by
    refine fun f hf => List.eq_nil_iff_forall_not_mem.2 fun u hu => ?_
    obtain ⟨⟨v, hv, e, part⟩, gone⟩ := swept.live_of_mem f hf u.id (Scope.mem_ids.2 ⟨u, hu, rfl⟩)
    exact gone (List.mem_map.2 ⟨v, (mem_participants h).2 ⟨hv, part, consistent.complete v hv part⟩, e⟩)
  refine ⟨empty, ?_⟩
  have none_open : after.factors.find? (fun f => !f.scope.vars.isEmpty) = none := by
    apply List.find?_eq_none.2
    intro f hf
    rw [empty f hf]
    simp
  unfold checkResidue
  rw [none_open]
  simp only
  rw [← List.countP_eq_length_filter, swept.carried]
  rfl

/-- The stage at the turn of a variable: it takes part and has not been swept, and neither has what
still occurs. -/
theorem stage_at_turn (h : d.WellFormed) {order : EliminationOrder}
    (consistent : d.Consistent order.ids (d.requisiteChance evidence) evidence) {gs : List (Factor α)}
    (stage : d.Stage (d.Active evidence) 1 nodes n gs) {pre post : List Variable} {v : Variable}
    (split : d.sweepOf evidence order = pre ++ v :: post) {state : Elimination α}
    (run : answer (pre.foldlM sweepOne ⟨gs, []⟩) n = (.ok state, m)) :
    v ∈ d.vars ∧ takesPart (d.requisiteChance evidence) evidence v = true ∧ v.id ∉ pre.map (·.id) ∧
    ∃ nodes', d.Stage (fun id => d.Active evidence id ∧ id ∉ pre.map (·.id)) 1 nodes' m
      state.factors := by
  have turn : v ∈ d.sweepOf evidence order := by rw [split]; simp
  have nodup : (d.sweepOf evidence order).Nodup := nodup_participants h consistent.nodup
  have sub := @sweepOf_sub _ _ d evidence h order
  obtain ⟨hv, part, -⟩ := (mem_participants h).1 turn
  rw [split] at sub nodup
  have before : ∀ u ∈ pre, u ∈ d.vars := fun u hu => sub u (List.mem_append_left _ hu)
  have stage : d.Stage (d.Active evidence) 1 nodes n (⟨gs, []⟩ : Elimination α).factors := stage
  obtain ⟨nodes', here, -⟩ := stage_sweep before stage run
  refine ⟨hv, part, ?_, nodes', here.toStage⟩
  rw [mem_map_id h before hv]
  exact (notMem_of_nodup nodup).1

/-- What is left to do after a sweep. -/
def conclude (d : Diagram α) (evidence : Slots) (state : Elimination α) : Infer (Solution α) := do
  let expectedUtility ← d.expectation state.factors evidence
  return ⟨expectedUtility,
    d.decisionOrder.filterMap fun id => state.rules.find? (·.decision.id == id)⟩

/-- Along a consistent order an elimination is a sweep over the participants, and a sweep that succeeds
leaves nothing to refuse. -/
theorem optimize_eq_sweep (h : d.WellFormed) {order : EliminationOrder} {observations : Assignment}
    (valid : d.slotsOf observations = .ok evidence)
    (consistent : d.Consistent order.ids (d.requisiteChance evidence) evidence) (n : Nat) :
    ∃ gs k nodes, answer (project (d.startTables evidence) evidence) n = (.ok gs, k) ∧
      d.Stage (d.Active evidence) 1 nodes k (⟨gs, []⟩ : Elimination α).factors ∧
      List.Forall₂ (Projected evidence) (d.startTables evidence) gs ∧
      answer (d.optimize order observations) n =
        answer ((d.sweepOf evidence order).foldlM sweepOne ⟨gs, []⟩ >>= d.conclude evidence) k := by
  obtain ⟨gs, k, nodes, projected, stage, filled⟩ := exists_start h (h.admits_of_slotsOf valid) n
  refine ⟨gs, k, nodes, projected, stage, filled, ?_⟩
  have opened : answer (d.optimize order observations) n = answer (do
      let state ← (d.sweepOf evidence order).foldlM sweepOne ⟨gs, []⟩
      liftExcept (checkResidue state.factors)
      d.conclude evidence state) k := by
    -- the variables that take no part are passed over, so the loop is one over the participants
    unfold optimize
    rw [valid, answer_bind_of_ok (answer_ofModel_ok evidence n)]
    simp only [foldlM_eliminateNext]
    rw [(checkOrder_eq_ok h).2 consistent, answer_bind_of_ok (answer_liftExcept _ n), ← startTables,
      answer_bind_of_ok projected]
    rfl
  rw [opened, answer_bind, answer_bind]
  rcases run : answer ((d.sweepOf evidence order).foldlM sweepOne ⟨gs, []⟩) k with ⟨e | state, l⟩
  · rfl
  · obtain ⟨nodes', swept, -⟩ := stage_sweep (sweepOf_sub h) stage run
    simp only
    rw [(swept.residue h consistent).2, answer_bind_of_ok (answer_liftExcept _ l)]

section Conclude

variable {state : Elimination α} (h : d.WellFormed) (admits : d.Admits evidence)
  (graph : Factor.Graph d.vars nodes) (members : ∀ f ∈ state.factors, nodes f)
  (empty : ∀ f ∈ state.factors, f.scope.vars = [])
include h admits graph members empty

/-- After a complete sweep an order comes to its end if the probability of what is observed is worked
out. -/
theorem accepted_of_probable (probable : evidence.assigned = [] ∨
    ∃ p m, answer (d.evidenceProbability evidence) n = (.ok p, m)) :
    Accepted (answer (d.conclude evidence state) n).1 := by
  unfold conclude expectation
  rw [Factor.answerFrom_productOf graph members empty (h.world_inRange admits.within), answer_bind,
    answer_bind_of_ok (answer_ofModel_ok _ n)]
  split_ifs with unobserved
  · exact .inl ⟨_, rfl⟩
  · obtain ⟨p, m, hp⟩ := probable.resolve_left (mt List.isEmpty_iff.2 unobserved)
    rw [answer_bind_of_ok hp]
    split_ifs
    · exact .inr rfl
    · exact .inl ⟨_, rfl⟩

/-- If the probability of what is observed is not worked out, the order fails with it. -/
theorem conclude_of_improbable (observed : evidence.assigned ≠ []) {e : InferenceError}
    (improbable : answer (d.evidenceProbability evidence) n = (.error e, m)) :
    answer (d.conclude evidence state) n = (.error e, m) := by
  unfold conclude expectation
  rw [Factor.answerFrom_productOf graph members empty (h.world_inRange admits.within), answer_bind,
    answer_bind_of_ok (answer_ofModel_ok _ n), if_neg (mt List.isEmpty_iff.1 observed),
    answer_bind_of_error improbable]

/-- Where all variables fit together only evidence without probability is in the way of a result. -/
theorem accepted_conclude (fits : d.Fits) : Accepted (answer (d.conclude evidence state) n).1 :=
  accepted_of_probable h admits graph members empty (.inr (exists_evidenceProbability h fits admits n))

end Conclude

theorem avoids_conclude (fine : ∀ e, ¬ bad (.model e)) (likely : ¬ bad .zeroEvidence)
    (state : Elimination α) : Avoids bad (d.conclude evidence state) := by
  have zero : ∀ {β : Type}, Avoids bad (throw .zeroEvidence : Infer β) := by
    intro β n e fails
    cases fails
    exact likely
  have probability : Avoids bad (d.evidenceProbability evidence) := by
    unfold evidenceProbability
    simp only
    split
    · exact .pure _
    · refine (Avoids.mapM (fun f => ?_) _).bind fun _ =>
        (Avoids.foldlM (avoids_eliminate fine) _ _).bind fun _ => .ofModel fine _
      unfold projectOne
      split
      · exact Avoids.nextNumber.bind fun _ => .ofModel fine _
      · exact .pure _
  unfold conclude expectation
  refine ((Avoids.ofModel fine _).bind fun _ => ?_).bind fun _ => .pure _
  split
  · exact .pure _
  · refine probability.bind fun _ => ?_
    split
    · exact zero
    · exact .pure _

/-- A consistent order is not refused when the decisions depend on what they observe; where all
variables fit together it is accepted. -/
theorem not_refused_of_inside (h : d.WellFormed) {order : EliminationOrder}
    {observations : Assignment} (valid : d.slotsOf observations = .ok evidence)
    (consistent : d.Consistent order.ids (d.requisiteChance evidence) evidence)
    (inside : ∀ gs k nodes, d.Stage (d.Active evidence) 1 nodes k gs →
      List.Forall₂ (Projected evidence) (d.startTables evidence) gs →
      ∀ pre D post, d.sweepOf evidence order = pre ++ D :: post → D.kind = .decision → ∀ state l,
        answer (pre.foldlM sweepOne ⟨gs, []⟩) k = (.ok state, l) → ∀ f ∈ state.factors,
          D.id ∈ f.scope.ids → ∀ id ∈ f.scope.ids, id = D.id ∨ id ∈ D.parents) (n : Nat) :
    ¬ Refused (answer (d.optimize order observations) n).1 ∧
      (d.Fits → Accepted (answer (d.optimize order observations) n).1) := by
  obtain ⟨gs, k, nodes, -, stage, filled, run⟩ := optimize_eq_sweep h valid consistent n
  have sub := @sweepOf_sub _ _ d evidence h order
  rw [run, answer_bind]
  -- a sweep that fails did so in an elimination, which refuses nothing and which large tables alone stop
  rcases swept : answer ((d.sweepOf evidence order).foldlM sweepOne ⟨gs, []⟩) k with ⟨e | state, l⟩
  · obtain ⟨fs, v, j, built, fails⟩ := sweep_error h sub stage (inside gs k nodes stage filled) swept
    constructor
    · rintro ⟨place, fault, refused⟩
      cases refused
      have legal : Avoids (· = .illegalOrder place fault) (eliminate fs v) :=
        avoids_eliminate (by simp) fs v
      exact legal j _ fails rfl
    · intro fits
      obtain ⟨hs, m, eliminated⟩ := exists_eliminate h fits built v j
      rw [eliminated] at fails
      cases fails
  · obtain ⟨nodes', last, -⟩ := stage_sweep sub stage swept
    constructor
    · rintro ⟨place, fault, refused⟩
      have legal : Avoids (· = .illegalOrder place fault) (d.conclude evidence state) :=
        avoids_conclude (by simp) (by simp) state
      exact legal l _ refused rfl
    · intro fits
      exact accepted_conclude h (h.admits_of_slotsOf valid) last.toGraph last.members
        (last.residue h consistent).1 fits

/-! ## Orders that are accepted, and orders that are refused -/

/-- Faults of the entries of an order, which its check finds. -/
def OfEntries : OrderFault → Prop
  | .unknownVariable | .repeated | .missing | .observedFirst _ => True
  | .outside .. | .mentionedBy _ | .freeVariables _ | .utilityCarriers _ => False

omit [Scalar α] in
/-- The check of an order raises nothing else than a refusal for one of its entries. -/
theorem checkOrder_error {order : List VarId} {requisite : Array Bool} {e : InferenceError}
    (fails : d.checkOrder order requisite evidence = .error e) :
    ∃ place fault, e = .illegalOrder place fault ∧ OfEntries fault := by
  have entries : ∀ seen e, d.checkEntries seen order = .error e →
      ∃ place fault, e = .illegalOrder place fault ∧ OfEntries fault := by
    clear fails
    induction order with
    | nil => exact fun _ _ e => nomatch e
    | cons id rest ih =>
      intro seen e fails
      unfold checkEntries at fails
      split at fails
      · cases fails
        exact ⟨_, _, rfl, trivial⟩
      · split at fails
        · cases fails
          exact ⟨_, _, rfl, trivial⟩
        · exact ih _ _ fails
  unfold checkOrder at fails
  cases he : d.checkEntries [] order with
  | error e' =>
    rw [he] at fails
    cases fails
    exact entries [] _ he
  | ok _ =>
    rw [he, ok_bind] at fails
    split at fails
    · cases fails
      exact ⟨_, _, rfl, trivial⟩
    · split at fails
      · cases fails
        exact ⟨_, _, rfl, trivial⟩
      · cases fails

/-- An order is consistent, or it is refused. -/
theorem consistent_or_refused (h : d.WellFormed) (order : EliminationOrder)
    {observations : Assignment} (valid : d.slotsOf observations = .ok evidence) (n : Nat) :
    d.Consistent order.ids (d.requisiteChance evidence) evidence ∨
      Refused (answer (d.optimize order observations) n).1 := by
  rw [← checkOrder_eq_ok h]
  rcases hc : d.checkOrder order.ids (d.requisiteChance evidence) evidence with e | ⟨⟨⟩⟩
  · right
    obtain ⟨place, fault, rfl, -⟩ := checkOrder_error hc
    unfold optimize
    rw [valid, answer_bind_of_ok (answer_ofModel_ok evidence n)]
    simp only
    rw [hc, answer_bind_of_error (answer_liftExcept (.error _) n)]
    exact ⟨place, fault, rfl⟩
  · exact .inl rfl

/-- An order that is accepted is consistent, and its participants were swept. -/
theorem sweep_of_accepted (h : d.WellFormed) {order : EliminationOrder} {observations : Assignment}
    (valid : d.slotsOf observations = .ok evidence)
    (accepted : Accepted (answer (d.optimize order observations) n).1) :
    d.Consistent order.ids (d.requisiteChance evidence) evidence ∧ ∃ gs k nodes state l,
      answer (project (d.startTables evidence) evidence) n = (.ok gs, k) ∧
      d.Stage (d.Active evidence) 1 nodes k (⟨gs, []⟩ : Elimination α).factors ∧
      List.Forall₂ (Projected evidence) (d.startTables evidence) gs ∧
      answer ((d.sweepOf evidence order).foldlM sweepOne ⟨gs, []⟩) k = (.ok state, l) ∧
      answer (d.optimize order observations) n = answer (d.conclude evidence state) l := by
  have consistent := (consistent_or_refused h order valid n).resolve_right accepted.not_refused
  obtain ⟨gs, k, nodes, projected, stage, filled, run⟩ := optimize_eq_sweep h valid consistent n
  have likely : Avoids (· = .zeroEvidence) ((d.sweepOf evidence order).foldlM sweepOne ⟨gs, []⟩) :=
    .foldlM (avoids_sweepOne (by simp) (by simp)) _ _
  rw [run, answer_bind] at accepted
  rw [run, answer_bind]
  rcases swept : answer ((d.sweepOf evidence order).foldlM sweepOne ⟨gs, []⟩) k with ⟨e | state, l⟩
  · rw [swept] at accepted
    rcases accepted with ⟨_, hx⟩ | zero
    · cases hx
    · cases zero
      exact absurd rfl (likely k _ (congrArg Prod.fst swept))
  · exact ⟨consistent, gs, k, nodes, state, l, projected, stage, filled, swept, rfl⟩

/-- Where all variables fit together an order is accepted or refused. -/
theorem accepted_or_refused (h : d.WellFormed) (fits : d.Fits) (order : EliminationOrder)
    {observations : Assignment} (valid : d.slotsOf observations = .ok evidence) (n : Nat) :
    Accepted (answer (d.optimize order observations) n).1 ∨
      Refused (answer (d.optimize order observations) n).1 := by
  rcases consistent_or_refused h order valid n with consistent | refused
  · obtain ⟨gs, k, nodes, projected, stage, -, run⟩ := optimize_eq_sweep h valid consistent n
    have sub := @sweepOf_sub _ _ d evidence h order
    rw [run, answer_bind]
    rcases swept : answer ((d.sweepOf evidence order).foldlM sweepOne ⟨gs, []⟩) k with ⟨e | state, l⟩
    · right
      -- the step that fails is a maximisation, since nothing stops an elimination
      obtain ⟨pre, v, post, mid, j, nodes', -, -, -, here, stopped⟩ := sweep_stops h sub stage swept
      rcases stopped with ⟨-, base, u, -, -, rfl⟩ | ⟨-, fails⟩
      · exact ⟨_, _, rfl⟩
      · obtain ⟨hs, m, eliminated⟩ := exists_eliminate h fits
          (fun f hf => here.built f (here.members f hf)) v j
        rw [eliminated] at fails
        cases fails
    · left
      obtain ⟨nodes', last, -⟩ := stage_sweep sub stage swept
      exact accepted_conclude h (h.admits_of_slotsOf valid) last.toGraph last.members
        (last.residue h consistent).1 fits
  · exact .inr refused

end Counsel.Diagram
