/-
Diagrams in which every decision observes every chance variable. No chance variable is eliminated before
a decision there (`sweepOf_observant`), so each decision in turn is maximised out of the utility alone
(`Stage.foremost`). A maximum keeps the first position that attains it; chosen one after the other, the
latest decision being the innermost, such positions make the first joint maximiser
(`FirstBest.concat`), which the rules of a solution therefore lead to (`follow_firstBest`).
-/
import Counsel.Proofs.Inference.Optimum

namespace Counsel

open Outcome

namespace World

/-- The index of the positions of some variables; the first variable counts most. -/
def indexIn (vars : List Variable) (x : World) : Nat :=
  MixedRadix.encode (Scope.bases vars) (vars.map fun v => x v.id)

variable {vars : List Variable} {v : Variable} {g k : World → Rat} {x y z : World}

theorem indexIn_concat (vars : List Variable) (v : Variable) (x : World) :
    indexIn (vars ++ [v]) x = indexIn vars x * v.card + x v.id := by
  unfold indexIn
  rw [Scope.bases, List.map_append, List.map_append, MixedRadix.encode_append (by simp)]
  simp [MixedRadix.encode, MixedRadix.size, Scope.bases]

/-- Positions in range are told by their index. -/
theorem eq_of_indexIn (hx : x.InRange vars) (hy : y.InRange vars)
    (same : indexIn vars x = indexIn vars y) : ∀ v ∈ vars, x v.id = y v.id := by
  have digits := congrArg (MixedRadix.decode (Scope.bases vars)) same
  unfold indexIn at digits
  rw [MixedRadix.decode_encode (Scope.inRange_map hx), MixedRadix.decode_encode (Scope.inRange_map hy),
    List.map_inj_left] at digits
  exact digits

/-- Another world has the same positions but for some variables, where it has positions in range. -/
structure Varies (vars : List Variable) (x y : World) : Prop where
  kept : ∀ id, id ∉ vars.map (·.id) → y id = x id
  inRange : y.InRange vars

/-- Among the worlds that vary in some variables only, one with the largest value, and of those with this
value the one whose positions have the smallest index. -/
structure FirstBest (vars : List Variable) (g : World → Rat) (x y : World) : Prop
    extends Varies vars x y where
  best : ∀ z, Varies vars x z → g z ≤ g y ∧ (indexIn vars z < indexIn vars y → g z < g y)

theorem firstBest_nil (g : World → Rat) (x : World) : FirstBest [] g x x where
  kept _ _ := rfl
  inRange _ h := absurd h List.not_mem_nil
  best z varies := by
    rw [show z = x from funext fun id => varies.kept id List.not_mem_nil]
    exact ⟨le_refl _, fun less => absurd less (lt_irrefl _)⟩

end World

/-- A rule chooses the first position of its decision at which the value is largest. -/
structure DecisionRule.Foremost (rule : DecisionRule Rat) (before after : World → Rat) : Prop where
  lt : ∀ x, rule.position x < rule.decision.card
  attained : ∀ x, before (Function.update x rule.decision.id (rule.position x)) = after x
  largest : ∀ x, ∀ p < rule.decision.card,
    before (Function.update x rule.decision.id p) ≤ after x
  first : ∀ x, ∀ p < rule.position x, before (Function.update x rule.decision.id p) < after x

namespace World

variable {vars : List Variable} {rule : DecisionRule Rat} {g k : World → Rat} {x y : World}

/-- The first joint maximiser of the values that a last rule attains, with the choice of the rule, is the
first joint maximiser of the values before. -/
theorem FirstBest.concat (fresh : rule.decision.id ∉ vars.map (·.id)) (foremost : rule.Foremost g k)
    (best : FirstBest vars k x y) :
    FirstBest (vars ++ [rule.decision]) g x
      (Function.update y rule.decision.id (rule.position y)) := by
  set v := rule.decision with hv
  have other : ∀ u ∈ vars, u.id ≠ v.id := fun u hu e => fresh (List.mem_map.2 ⟨u, hu, e⟩)
  have same : ∀ (w : World) p, indexIn vars (Function.update w v.id p) = indexIn vars w := by
    intro w p
    unfold indexIn
    rw [List.map_congr_left fun u hu => Function.update_of_ne (other u hu) _ _]
  refine ⟨⟨fun id hid => ?_, fun u hu => ?_⟩, fun z varies => ?_⟩
  · rw [List.map_append, List.mem_append, List.map_singleton, List.mem_singleton, not_or] at hid
    rw [Function.update_of_ne hid.2, best.kept id hid.1]
  · rcases List.mem_append.1 hu with hu | hu
    · rw [Function.update_of_ne (other u hu)]
      exact best.inRange u hu
    · rw [List.mem_singleton.1 hu, Function.update_self]
      exact foremost.lt y
  · -- the other world with the last choice taken back
    have varies' : Varies vars x (Function.update z v.id (x v.id)) := by
      refine ⟨fun id hid => ?_, fun u hu => ?_⟩
      · by_cases e : id = v.id
        · rw [e, Function.update_self]
        · rw [Function.update_of_ne e]
          exact varies.kept id (by simp [hid, e])
      · rw [Function.update_of_ne (other u hu)]
        exact varies.inRange u (List.mem_append_left _ hu)
    have range : z v.id < v.card := varies.inRange v (by simp)
    have restored : Function.update (Function.update z v.id (x v.id)) v.id (z v.id) = z := by
      rw [Function.update_idem, Function.update_eq_self]
    obtain ⟨le, less⟩ := best.best _ varies'
    have bound : g z ≤ k (Function.update z v.id (x v.id)) := by
      have := foremost.largest (Function.update z v.id (x v.id)) (z v.id) range
      rwa [← hv, restored] at this
    rw [foremost.attained y]
    refine ⟨le_trans bound le, fun before => ?_⟩
    rw [indexIn_concat, indexIn_concat, same, Function.update_self] at before
    rw [same] at less
    rcases lt_trichotomy (indexIn vars z) (indexIn vars y) with smaller | equal | larger
    · exact lt_of_le_of_lt bound (less smaller)
    · -- only the last choice differs, and it is the first of the best
      have agree := eq_of_indexIn varies'.inRange best.inRange ((same z _).trans equal)
      have world : Function.update z v.id (x v.id) = y := by
        funext id
        by_cases mem : id ∈ vars.map (·.id)
        · obtain ⟨u, hu, rfl⟩ := List.mem_map.1 mem
          exact agree u hu
        · rw [varies'.kept id mem, best.kept id mem]
      rw [equal] at before
      have := foremost.first y (z v.id) (Nat.lt_of_add_lt_add_left before)
      rwa [← hv, ← world, restored, world] at this
    · -- a larger index stays larger whatever the last choice adds
      have lt : rule.position y < v.card := foremost.lt y
      have := Nat.mul_le_mul_right v.card (Nat.succ_le_of_lt larger)
      rw [Nat.succ_mul] at this
      omega

end World

open World

namespace Diagram

variable {d : Diagram Rat} {live : VarId → Prop} {nodes : Factor Rat → Prop} {n m : Nat}
  {fs gs : List (Factor Rat)}

/-! ## The utility alone -/

/-- The value of the factors that the utility is part of. -/
def utilityIn (fs : List (Factor Rat)) (x : World) : Rat :=
  Factor.weight (fs.filter (·.carriesUtility)) x

/-- One factor carries the utility. -/
theorem Stage.carrier (stage : d.Stage live 1 nodes n fs) :
    ∃ c ∈ fs, fs.filter (·.carriesUtility) = [c] := by
  have one := stage.carried
  rw [List.countP_eq_length_filter, List.length_eq_one_iff] at one
  obtain ⟨c, hc⟩ := one
  exact ⟨c, List.mem_of_mem_filter (hc ▸ List.mem_singleton_self c), hc⟩

/-- Filling no evidence in leaves the utility as it is. -/
theorem utilityIn_start (h : d.WellFormed)
    (projected : List.Forall₂ (Projected Slots.empty) (d.startTables Slots.empty) gs) (x : World) :
    utilityIn gs x = d.utility.valueIn x := by
  have tables : (d.startTables Slots.empty).filter (·.carriesUtility) = [d.utility] := by
    rw [startTables, List.filter_append, List.filter_eq_nil_iff.2 fun f hf => ?_,
      List.filter_cons_of_pos h.carriesUtility_utility]
    · rfl
    · rw [carriesUtility_markedFactors h hf]
      exact Bool.false_ne_true
  have kept : List.Forall₂ (Projected Slots.empty) [d.utility] (gs.filter (·.carriesUtility)) := by
    rw [← tables]
    exact List.rel_filter (fun _ _ p => by simp only [p.carriesUtility]) projected
  rw [utilityIn, weight_projected kept (agrees_iff.2 fun id p hp => by
    rw [Slots.get?_empty] at hp
    cases hp), Factor.weight_singleton]

/-- Maximising a decision out keeps a rule that chooses the first position at which the utility is
largest. -/
theorem Stage.foremost (h : d.WellFormed) {state state' : Elimination Rat}
    (stage : d.Stage live 1 nodes n state.factors) {v : Variable} (hv : v ∈ d.vars)
    (decision : v.kind = .decision) (run : answer (Diagram.maximise state v) n = (.ok state', m)) :
    ∃ rule, state'.rules = state.rules ++ [rule] ∧ rule.decision = v ∧
      rule.Foremost (utilityIn state.factors) (utilityIn state'.factors) := by
  obtain ⟨c, hc, alone⟩ := stage.carrier
  rcases maximise_cases run with ⟨none_left, -, rfl⟩ | ⟨-, base, best, one, -, made, rfl⟩
  · have same : ∀ x p, utilityIn state.factors (Function.update x v.id p) = utilityIn state.factors x :=
      Factor.weight_update (fun f hf => stage.built f (stage.members f (List.mem_of_mem_filter hf)))
        fun f hf => none_left f (List.mem_of_mem_filter hf)
    exact ⟨⟨v, none⟩, rfl, rfl, fun _ => h.card_pos hv, fun x => same x _,
      fun x p _ => (same x p).le, fun x p hp => absurd hp (Nat.not_lt_zero p)⟩
  · obtain ⟨hbase, mentions⟩ := (mentioning_one one).2 rfl
    have carries := stage.carries_of_mem h hv decision hbase mentions
    have before : ∀ x, utilityIn state.factors x = base.valueIn x := fun x => by
      have : base ∈ [c] := alone ▸ List.mem_filter.2 ⟨hbase, carries⟩
      rw [utilityIn, alone, List.mem_singleton.1 this, Factor.weight_singleton]
    have after : ∀ x, utilityIn (state.factors.filter (!·.mentions v.id) ++ [best]) x =
        best.valueIn x := fun x => by
      rw [utilityIn, List.filter_append, List.filter_eq_nil_iff.2 fun f hf => ?_, List.nil_append,
        List.filter_cons_of_pos (by rw [Factor.carriesUtility_maxOut made, carries]), List.filter_nil,
        Factor.weight_singleton]
      obtain ⟨hf, away⟩ := List.mem_filter.1 hf
      rw [stage.plain_of_others h hv decision one hf (mentions_eq_false.1 (by simpa using away))]
      exact Bool.false_ne_true
    have maximum := Factor.cellIn_maxOut made (h.card_pos hv)
    refine ⟨⟨v, some best⟩, rfl, rfl, fun x => (maximum x).1, fun x => ?_, fun x p hp => ?_,
      fun x p hp => ?_⟩
    · rw [before, after]
      exact (maximum x).2.1
    · rw [before, after]
      exact (maximum x).2.2.1 p hp
    · rw [before, after]
      exact (maximum x).2.2.2 p hp

/-- A sweep over decisions makes rules that lead, taken in the opposite order, to the first joint
maximiser of the utility. -/
theorem firstBest_sweep (h : d.WellFormed) {vars : List Variable} (nodup : (vars.map (·.id)).Nodup)
    (decisions : ∀ v ∈ vars, v ∈ d.vars ∧ v.kind = .decision) {before after : Elimination Rat}
    (stage : d.Stage live 1 nodes n before.factors)
    (run : answer (vars.foldlM sweepOne before) n = (.ok after, m)) :
    ∃ made, after.rules = before.rules ++ made ∧ made.map (·.decision) = vars ∧
      ∀ x, FirstBest vars.reverse (utilityIn before.factors) x (Solution.follow made.reverse x) := by
  induction vars generalizing live nodes n before with
  | nil =>
    cases run
    exact ⟨[], by simp, rfl, firstBest_nil _⟩
  | cons v rest ih =>
    rw [List.foldlM_cons, answer_bind_ok] at run
    obtain ⟨mid, k, first, run⟩ := run
    obtain ⟨hv, decision⟩ := decisions v List.mem_cons_self
    rw [sweepOne, if_pos (isDecision_iff.2 decision)] at first
    rw [List.map_cons, List.nodup_cons] at nodup
    obtain ⟨nodes', stage', -⟩ := stage.maximise hv first
    obtain ⟨rule, rules, rfl, foremost⟩ := stage.foremost h hv decision first
    obtain ⟨made, e, others, best⟩ :=
      ih nodup.2 (fun u hu => decisions u (List.mem_cons_of_mem _ hu)) stage' run
    refine ⟨rule :: made, by rw [e, rules, List.append_assoc, List.singleton_append],
      by rw [List.map_cons, others], fun x => ?_⟩
    rw [List.reverse_cons, List.reverse_cons, Solution.follow_append]
    exact (best x).concat (by simpa using nodup.1) foremost

/-! ## Decisions that observe everything -/

/-- Every decision observes every chance variable. -/
def Observant {α : Type} (d : Diagram α) : Prop :=
  ∀ D ∈ d.vars, D.kind = .decision → ∀ v ∈ d.vars, v.kind = .chance → v.id ∈ D.parents

/-- Where all that is pending is observed, the decisions come first. -/
theorem backward_of_observed {α : Type} {d : Diagram α} {pending decisions : List VarId}
    (observed : ∀ D ∈ decisions, ∀ id ∈ pending, id ∈ d.parentsOf D) :
    EliminationOrder.backward d pending decisions = decisions ++ pending := by
  induction decisions with
  | nil => rfl
  | cons D earlier ih =>
    have later : pending.partition ((D :: earlier).flatMap d.parentsOf).contains = (pending, []) := by
      rw [List.partition_eq_filter_filter, List.filter_eq_self.2 fun id hid => ?_,
        List.filter_eq_nil_iff.2 fun id hid => ?_]
      · simp [observed D List.mem_cons_self id hid]
      · rw [List.contains_iff_mem]
        exact List.mem_flatMap.2 ⟨D, List.mem_cons_self, observed D List.mem_cons_self id hid⟩
    rw [EliminationOrder.backward]
    simp only [later]
    rw [ih fun D' hD => observed D' (List.mem_cons_of_mem _ hD)]
    rfl

/-- The decisions are eliminated before all chance variables, the latest one first. -/
theorem sweepOf_observant (h : d.WellFormed) (observant : d.Observant) :
    ∃ rest, d.sweepOf Slots.empty (EliminationOrder.forEvidence d Slots.empty) =
        (d.pick d.decisionOrder).reverse ++ rest ∧ ∀ v ∈ rest, v.kind = .chance := by
  have pending : ∀ id ∈ EliminationOrder.pendingFor d Slots.empty,
      ∃ v ∈ d.vars, v.id = id ∧ v.kind = .chance := fun id hid =>
    h.mem_orderOf.1 (List.mem_reverse.1 (List.mem_of_mem_filter hid))
  have order : (EliminationOrder.forEvidence d Slots.empty).ids = _ := EliminationOrder.ids_forEvidence
  have observed : ∀ D ∈ d.decisionOrder.reverse, ∀ id ∈ EliminationOrder.pendingFor d Slots.empty,
      id ∈ d.parentsOf D := by
    intro D hD id hid
    obtain ⟨u, hu, rfl, decision⟩ := h.mem_orderOf.1 (List.mem_reverse.1 hD)
    obtain ⟨v, hv, rfl, chance⟩ := pending id hid
    rw [h.parentsOf_eq hu]
    exact observant u hu decision v hv chance
  rw [openDecisions_empty, backward_of_observed observed] at order
  have taken : d.decisionOrder.reverse.filterMap (fun id => (d.byId? id).filter
      (takesPart (d.requisiteChance Slots.empty) Slots.empty)) = (d.pick d.decisionOrder).reverse := by
    rw [pick, ← List.filterMap_reverse]
    refine List.filterMap_congr fun id hid => ?_
    obtain ⟨u, hu, rfl, decision⟩ := h.mem_orderOf.1 (List.mem_reverse.1 hid)
    rw [h.byId?_eq_some.2 ⟨hu, rfl⟩, Option.filter_some, if_pos]
    exact takesPart_iff.2 ⟨by rw [Slots.isAssigned, Slots.get?_empty]; rfl, .inl decision⟩
  refine ⟨_, by rw [sweepOf, participants, order, List.filterMap_append, taken], fun v hv => ?_⟩
  obtain ⟨id, hid, found⟩ := List.mem_filterMap.1 hv
  obtain ⟨u, hu, rfl, chance⟩ := pending id hid
  rw [h.byId?_eq_some.2 ⟨hu, rfl⟩, Option.filter_eq_some_iff] at found
  cases found.1
  exact chance

/-- Where every decision observes every chance variable, following the rules of a solution leads in every
world to the first joint maximiser of the utility. -/
theorem follow_firstBest (h : d.WellFormed) (observant : d.Observant) {s : Solution Rat}
    (run : answer (d.solve NameMap.empty) n = (.ok s, m)) (x : World) :
    FirstBest (d.pick d.decisionOrder) d.utility.valueIn x (Solution.follow s.rules x) := by
  have valid : d.slotsOf NameMap.empty = .ok Slots.empty := rfl
  rw [EliminationOrder.solve_eq valid] at run
  obtain ⟨consistent, gs, k, nodes, state, l, -, stage, projected, swept, ended⟩ :=
    sweep_of_accepted h valid (.inl ⟨s, congrArg Prod.fst run⟩)
  rw [ended] at run
  obtain ⟨rest, order, chance⟩ := sweepOf_observant h observant
  have decisions : ∀ v ∈ (d.pick d.decisionOrder).reverse, v ∈ d.vars ∧ v.kind = .decision := by
    intro v hv
    obtain ⟨hv, listed⟩ := h.mem_pick.1 (List.mem_reverse.1 hv)
    exact ⟨hv, (mem_decisionOrder h hv).1 listed⟩
  have ids : (d.pick d.decisionOrder).map (·.id) = d.decisionOrder :=
    h.map_id_pick fun id hid => (h.mem_orderOf.1 hid).imp fun v k => ⟨k.1, k.2.1⟩
  have nodup : d.decisionOrder.Nodup := h.nodup_orderOf .decision
  have nodup' : ((d.pick d.decisionOrder).reverse.map (·.id)).Nodup := by
    rw [List.map_reverse, ids]
    exact List.nodup_reverse.2 nodup
  rw [order, List.foldlM_append, answer_bind_ok] at swept
  obtain ⟨mid, j, first, last⟩ := swept
  obtain ⟨made, rules, made_for, best⟩ := firstBest_sweep h nodup' decisions stage first
  -- the chance variables that come after the decisions add no rules
  have rules' : state.rules = made := by
    obtain ⟨nodes', between, -⟩ := stage_sweep (fun v hv => (decisions v hv).1) stage first
    have inside : ∀ v ∈ rest, v ∈ d.vars := fun v hv =>
      sweepOf_sub h v (order ▸ List.mem_append_right _ hv)
    obtain ⟨nodes'', swept', -⟩ := stage_sweep inside between.toStage last
    obtain ⟨none_more, e, none_for, -⟩ := swept'.rules
    rw [List.filter_eq_nil_iff.2 fun v hv => by simp [isDecision_eq_false.2 (chance v hv)],
      List.map_eq_nil_iff] at none_for
    rw [e, rules, none_for, List.nil_append, List.append_nil]
  have kept : s.rules = made.reverse := by
    obtain ⟨u, i, -, concluded⟩ := answer_bind_ok.1 run
    cases concluded
    have turn : d.decisionOrder = made.reverse.map (·.decision.id) := by
      rw [← ids, ← List.reverse_reverse (d.pick d.decisionOrder), ← made_for, ← List.map_reverse,
        List.map_map]
      rfl
    show d.decisionOrder.filterMap (ruleFor state.rules) = _
    rw [rules', turn, List.filterMap_map]
    refine (List.filterMap_congr fun rule hr => ?_).trans List.filterMap_some
    exact ruleFor_eq (by rwa [turn, List.map_reverse, List.nodup_reverse] at nodup)
      (List.mem_reverse.1 hr)
  have best := best x
  rw [List.reverse_reverse, ← kept] at best
  rwa [funext (utilityIn_start h projected)] at best

end Diagram

end Counsel
