/-
Solutions are optimal. Along any accepted order the nested sum of a policy is the mass of its utility
(`nest_eq_mass`), which the sweep bounds and the rules attain, and what is left after the sweep is
divided by the probability of the evidence (`conclude_eq_ok`). So the expected utility of a solution is
the greatest that a policy has given the evidence, the rules attain it, and it does not depend on the
order (`optimize_greatest`).
-/
import Counsel.Proofs.Inference.Posterior
import Counsel.Proofs.Inference.Value

namespace Counsel.Diagram

open World Outcome EliminationOrder

variable {d : Diagram Rat} {evidence : Slots} {order : EliminationOrder} {gs : List (Factor Rat)}

/-! ## The mass of a policy's utility -/

/-- Playing a policy changes no chance variable and nothing that is observed. -/
theorem play_of_notMem (h : d.WellFormed) (policy : d.Policy) {v : Variable} (hv : v ∈ d.vars)
    (fixed : v.kind = .chance ∨ evidence.isAssigned v.id = true) (x : World) :
    policy.play evidence x v.id = x v.id := by
  refine (play_settled h policy evidence x).kept v.id fun hopen => ?_
  obtain ⟨D, hD, e, decision, free⟩ := exists_of_mem_openDecisions h hopen
  rw [h.inj D hD v hv e] at decision
  rcases fixed with chance | assigned
  · rw [chance] at decision
    cases decision
  · rw [assigned] at free
    cases free

theorem agrees_play (h : d.WellFormed) (admits : d.Admits evidence) (policy : d.Policy) {x : World}
    (agrees : x.Agrees evidence) : (policy.play evidence x).Agrees evidence := by
  rw [agrees_iff] at agrees ⊢
  intro id p hp
  have assigned := Slots.isAssigned_iff.2 ⟨p, hp⟩
  obtain ⟨v, hv, rfl⟩ := admits.known id assigned
  rw [play_of_notMem h policy hv (.inr assigned), agrees v.id p hp]

/-- The utility of a policy does not depend on chance variables that are not requisite. -/
theorem utility_play_update (h : d.WellFormed) (admits : d.Admits evidence) (policy : d.Policy)
    {v : Variable} (hv : v ∈ d.chanceVars) (barren : ¬ Marked (d.requisiteChance evidence) v.id)
    (x : World) (p : Nat) : d.utility.valueIn (policy.play evidence (Function.update x v.id p)) =
      d.utility.valueIn (policy.play evidence x) := by
  obtain ⟨hm, chance⟩ := mem_chanceVars.1 hv
  have out : ¬ d.Reaches (d.concerns evidence) v.id := fun k =>
    barren ((marked_requisite h admits.known hm).2 ⟨chance, k⟩)
  apply Factor.valueIn_congr h.built_utility.1
  intro id hid
  -- the utility reads a set of variables that is closed under parents and does without the variable
  refine Settled.unique h (S := d.Reaches (d.concerns evidence)) (fun id k p hp => k.parent hp)
    (play_settled h policy evidence _) (play_settled h policy evidence x) (fun other k _ => ?_) id
    (.target (List.mem_append_left _ hid))
  rw [Function.update_of_ne]
  rintro rfl
  exact out k

/-- Tables do not depend on the choices of a policy. -/
theorem tables_play (h : d.WellFormed) (policy : d.Policy) (marks : Array Bool) (x : World) :
    Factor.weight (d.markedFactors marks) (policy.play evidence x) =
      Factor.weight (d.markedFactors marks) x := by
  have unmoved : ∀ u ∈ d.chanceVars, policy.play evidence x u.id = x u.id := fun u hu => by
    obtain ⟨hu, chance⟩ := mem_chanceVars.1 hu
    exact play_of_notMem h policy hu (.inl chance) x
  unfold Factor.weight
  rw [List.map_congr_left fun f hf => ?_]
  obtain ⟨v, hv, cond⟩ := forall₂_right_mem h.conditionals ((mem_markedFactors h).1 hf).1
  exact cond.valueIn_congr h hv unmoved

/-- The chance variables of a consistent order are the requisite ones without evidence. -/
theorem mem_swept_chance (h : d.WellFormed)
    (consistent : d.Consistent order.ids (d.requisiteChance evidence) evidence) {v : Variable} :
    v ∈ (d.sweepOf evidence order).filter (!·.isDecision) ↔
      v ∈ d.chanceVars ∧ d.Hidden (d.requisiteChance evidence) evidence v.id := by
  rw [List.mem_filter, mem_participants h, Bool.not_eq_true', isDecision_eq_false, mem_chanceVars]
  constructor
  · rintro ⟨⟨hv, part, -⟩, chance⟩
    obtain ⟨free, decision | marked⟩ := takesPart_iff.1 part
    · rw [chance] at decision
      cases decision
    · exact ⟨⟨hv, chance⟩, free, marked, v, mem_chanceVars.2 ⟨hv, chance⟩, rfl⟩
  · rintro ⟨⟨hv, chance⟩, free, marked, -⟩
    have part : takesPart (d.requisiteChance evidence) evidence v = true :=
      takesPart_iff.2 ⟨free, .inr marked⟩
    exact ⟨⟨hv, part, consistent.complete v hv part⟩, chance⟩

/-- The nested sum of a policy is the mass of its utility. -/
theorem nest_eq_mass (h : d.WellFormed) (rows : d.RowsSumToOne) (admits : d.Admits evidence)
    (consistent : d.Consistent order.ids (d.requisiteChance evidence) evidence)
    (projected : List.Forall₂ (Projected evidence) (d.startTables evidence) gs) (policy : d.Policy) :
    nest policy (d.sweepOf evidence order) (Factor.weight gs) evidence.world =
      d.mass evidence fun x => d.utility.valueIn (policy.play evidence x) := by
  have nodup : (d.sweepOf evidence order).Nodup := nodup_participants h consistent.nodup
  -- barren chance variables sum to one and leave the utility alone, so the requisite ones make the mass
  rw [nest_eq_enumerate policy (foreseen_sweepOf h consistent),
    mass_eq_marked h rows admits (marked_requisite_closed h admits) (fun v hv assigned => ?_)
      (nodup.filter _) (fun v => mem_swept_chance h consistent)
      fun v hv barren y p => utility_play_update h admits policy hv barren y p]
  · refine enumerate_agrees (fun v hv => ((mem_swept_chance h consistent).1 hv).2.1) (fun y hy => ?_)
      (agrees_world evidence)
    rw [settle_eq_play h consistent, weight_projected projected (agrees_play h admits policy hy),
      startTables, Factor.weight_append, Factor.weight_singleton, tables_play h]
  · obtain ⟨hm, chance⟩ := mem_chanceVars.1 hv
    refine (marked_requisite h admits.known hm).2 ⟨chance, .target ?_⟩
    exact List.mem_append_right _ (Slots.mem_assigned_ids.2 assigned)

/-! ## The end of a run -/

/-- A result is what is left after the sweep, divided by the probability of the evidence. -/
theorem conclude_eq_ok (h : d.WellFormed) (rows : d.RowsSumToOne) (admits : d.Admits evidence)
    {nodes : Factor Rat → Prop} {state : Elimination Rat} {s : Solution Rat} {l m : Nat}
    (graph : Factor.Graph d.vars nodes) (members : ∀ f ∈ state.factors, nodes f)
    (empty : ∀ f ∈ state.factors, f.scope.vars = [])
    (run : answer (d.conclude evidence state) l = (.ok s, m)) :
    0 < d.mass evidence (fun _ => 1) ∧
      s.expectedUtility = Factor.weight state.factors evidence.world / d.mass evidence (fun _ => 1) ∧
      s.rules = d.decisionOrder.filterMap (ruleFor state.rules) := by
  have range : evidence.world.InRange d.vars := h.world_inRange admits.within
  unfold conclude at run
  obtain ⟨eu, k, expectation, made⟩ := answer_bind_ok.1 run
  cases made
  unfold Diagram.expectation at expectation
  rw [Factor.answerFrom_productOf graph members empty range, answer_bind_of_ok (answer_ofModel_ok _ l)]
    at expectation
  simp only [Factor.productValue_eq] at expectation
  split_ifs at expectation with none_observed
  · -- without evidence the tables sum to one
    have no_chance : d.observedChance evidence = [] := by
      rw [observedChance, List.isEmpty_iff.1 none_observed]
      rfl
    cases expectation
    rw [mass_eq_one h rows admits no_chance, div_one]
    exact ⟨zero_lt_one, rfl, rfl⟩
  · obtain ⟨p, j, probability, rest⟩ := answer_bind_ok.1 expectation
    have mass := evidenceProbability_eq h rows admits probability
    split_ifs at rest with impossible
    · cases rest
    · cases rest
      rw [← mass]
      refine ⟨?_, rfl, rfl⟩
      simp only [Bool.or_eq_true, decide_eq_true_eq, not_or, not_le] at impossible
      exact impossible.1

/-! ## Solutions -/

/-- What a run along an accepted order gives: the rules of the decisions, whose policy is optimal. -/
theorem optimum_of_optimize (h : d.WellFormed) (rows : d.RowsSumToOne) {observations : Assignment}
    (valid : d.slotsOf observations = .ok evidence) {n m : Nat} {s : Solution Rat}
    (run : answer (d.optimize order observations) n = (.ok s, m)) :
    0 < d.mass evidence (fun _ => 1) ∧
      (∀ policy : d.Policy, d.expectedUtility evidence policy ≤ s.expectedUtility) ∧
      ∃ ruled : d.Ruled evidence s.rules,
        d.expectedUtility evidence (policyOf h ruled.sensible) = s.expectedUtility ∧
        ∃ nodes, Factor.Graph d.vars nodes ∧ ∀ rule ∈ s.rules, ∀ f ∈ rule.factor, nodes f := by
  have admits := h.admits_of_slotsOf valid
  obtain ⟨consistent, gs, k, nodes, state, l, -, stage, projected, swept, ended⟩ :=
    sweep_of_accepted h valid (.inl ⟨s, congrArg Prod.fst run⟩)
  obtain ⟨ruled, nodes', graph, members⟩ := ruled_of_optimize h valid run
  rw [ended] at run
  have foreseen := foreseen_sweepOf h consistent
  have part : ∀ v ∈ d.sweepOf evidence order, d.Active evidence v.id ∧
      evidence.isAssigned v.id = false := fun v hv => by
    obtain ⟨hv, part, -⟩ := (mem_participants h).1 hv
    exact ⟨⟨v, hv, rfl, part⟩, (takesPart_iff.1 part).1⟩
  obtain ⟨last_nodes, last, -⟩ := stage_sweep foreseen.sub stage swept
  obtain ⟨made, rules, best⟩ := weight_sweep h foreseen part stage (nonneg_start h projected) swept
  obtain ⟨positive, value, kept⟩ :=
    conclude_eq_ok h rows admits last.toGraph last.members (last.residue h consistent).1 run
  have rules : state.rules = made := rules
  rw [rules] at kept
  have nodup : (made.map (·.decision.id)).Nodup := by
    have sub : ((d.sweepOf evidence order).filter (·.isDecision)).Sublist (d.sweepOf evidence order) :=
      List.filter_sublist
    have ids := foreseen.nodup.sublist (sub.map (·.id))
    rwa [← best.decisions, List.map_map] at ids
  -- playing a policy is summing and choosing in the order of the sweep
  have expected : ∀ policy : d.Policy, d.expectedUtility evidence policy =
      nest policy (d.sweepOf evidence order) (Factor.weight gs) evidence.world /
        d.mass evidence fun _ => 1 := fun policy => by
    rw [nest_eq_mass h rows admits consistent projected]
    rfl
  refine ⟨positive, fun policy => ?_, ruled, ?_, nodes', graph, members⟩
  · rw [expected, value]
    exact div_le_div_of_nonneg_right (best.bound policy _ (agrees_world evidence)) (le_of_lt positive)
  · rw [expected, value, best.attained _ fun rule hr x => ?_]
    refine choose_policyOf h ruled.sensible (ruled.nodup h) ?_ x
    have turn : rule.decision ∈ (d.sweepOf evidence order).filter (·.isDecision) :=
      best.decisions ▸ List.mem_map_of_mem hr
    obtain ⟨swept_in, decision⟩ := List.mem_filter.1 turn
    rw [kept]
    exact List.mem_filterMap.2 ⟨rule.decision.id, (mem_decisionOrder h (foreseen.sub _ swept_in)).2
      (isDecision_iff.1 decision), ruleFor_eq nodup hr⟩

/-- For a diagram that was built and whose rows sum to one, a solution along any order is optimal: its
expected utility is the greatest, among all policies, of the expected utilities given the evidence; its
rules read what their decisions observe, and acting on them is playing a policy that attains it; and
solutions along other orders have the same expected utility. -/
theorem optimize_greatest {decl : Declaration Rat} (built : decl.build = .ok d)
    (rows : d.RowsSumToOne) {observations : Assignment} {n m : Nat} {s : Solution Rat}
    (run : answer (d.optimize order observations) n = (.ok s, m)) :
    ∃ evidence, d.slotsOf observations = .ok evidence ∧ 0 < d.mass evidence (fun _ => 1) ∧
      IsGreatest (Set.range (d.expectedUtility evidence)) s.expectedUtility ∧
      (∀ rule ∈ s.rules, ∀ v ∈ rule.inputs, v.id ∈ rule.decision.parents) ∧
      (∃ policy : d.Policy, d.expectedUtility evidence policy = s.expectedUtility ∧
        ∀ slots : Slots, slots.Within d.vars →
          (∀ v ∈ d.vars, v.kind = .chance → slots.isAssigned v.id = true) →
          s.act slots = .ok ((openDecisions d evidence).map fun D =>
            (D, policy.play evidence slots.world D))) ∧
      ∀ order' n' s' m', answer (d.optimize order' observations) n' = (.ok s', m') →
        s'.expectedUtility = s.expectedUtility := by
  have h := Declaration.wellFormed_of_build built
  obtain ⟨evidence, valid⟩ : ∃ evidence, d.slotsOf observations = .ok evidence := by
    unfold optimize at run
    obtain ⟨evidence, k, read, -⟩ := answer_bind_ok.1 run
    exact ⟨evidence, (answer_ofModel_eq_ok.1 read).1⟩
  obtain ⟨positive, bound, ruled, attained, nodes, graph, members⟩ :=
    optimum_of_optimize h rows valid run
  refine ⟨evidence, valid, positive, ⟨⟨_, attained⟩, ?_⟩, fun rule hr v hv => ?_, ⟨_, attained, ?_⟩, ?_⟩
  · rintro _ ⟨policy, rfl⟩
    exact bound policy
  · have sound := ruled.sensible rule hr
    unfold DecisionRule.inputs at hv
    cases hf : rule.factor with
    | none =>
      rw [hf] at hv
      cases hv
    | some f =>
      rw [hf] at hv
      exact (sound.reads f hf v.id (Scope.mem_ids.2 ⟨v, hv, rfl⟩)).1
  · exact fun slots within known => act_eq_play h ruled graph members within known
  · intro order' n' s' m' run'
    obtain ⟨-, bound', ruled', attained', -⟩ := optimum_of_optimize h rows valid run'
    exact le_antisymm (attained' ▸ bound _) (attained ▸ bound' _)

/-- Whoever takes the umbrella on a rainy forecast and leaves it on a sunny one does best. -/
theorem greatest_umbrella : ∃ s m evidence,
    answer (umbrellaDiagram.optimize ⟨[⟨0⟩, ⟨2⟩, ⟨1⟩]⟩ NameMap.empty) 0 = (.ok s, m) ∧
      s.expectedUtility = 147 / 2 ∧ umbrellaDiagram.slotsOf NameMap.empty = .ok evidence ∧
      IsGreatest (Set.range (umbrellaDiagram.expectedUtility evidence)) s.expectedUtility := by
  have solved : (answer (umbrellaDiagram.optimize ⟨[⟨0⟩, ⟨2⟩, ⟨1⟩]⟩ NameMap.empty) 0).1.toOption.map
      (·.expectedUtility) = some (147 / 2) := by decide +kernel
  obtain ⟨s, m, run, value⟩ := answer_of_map solved
  obtain ⟨evidence, valid, -, greatest, -⟩ := optimize_greatest build_umbrella rows_umbrella run
  exact ⟨s, m, evidence, run, value, valid, greatest⟩

end Counsel.Diagram
