/-
The product of the factors in the course of a sweep. Tables are not negative, and neither are the
factors made of them (`Nonneg`), so maximising a decision out gives what its rule attains, and no other
choice gives more (`Stage.weight_maximise`). A whole sweep therefore bounds the nested sum of every
policy, and the policy of its rules attains the bound (`weight_sweep`).
-/
import Counsel.Proofs.Inference.Elimination
import Counsel.Proofs.Inference.Nested
import Counsel.Proofs.Inference.Rules

namespace Counsel

open World Outcome

namespace Diagram

variable {d : Diagram Rat} {evidence : Slots} {live : VarId → Prop} {nodes : Factor Rat → Prop}
  {n m : Nat} {fs gs : List (Factor Rat)}

/-- Factors without the utility are not negative in worlds that agree with the evidence. -/
def Nonneg (evidence : Slots) (fs : List (Factor Rat)) : Prop :=
  ∀ f ∈ fs, f.carriesUtility = false → ∀ x : World, x.Agrees evidence → 0 ≤ f.valueIn x

theorem Nonneg.weight (h : Nonneg evidence fs) (plain : ∀ f ∈ fs, f.carriesUtility = false) {x : World}
    (agrees : x.Agrees evidence) : 0 ≤ Factor.weight fs x := by
  apply List.prod_nonneg
  intro y hy
  obtain ⟨f, hf, rfl⟩ := List.mem_map.1 hy
  exact h f hf (plain f hf) x agrees

theorem Nonneg.eliminate (h : Nonneg evidence fs) {v : Variable}
    (free : evidence.isAssigned v.id = false)
    (run : answer (Diagram.eliminate fs v) n = (.ok gs, m)) : Nonneg evidence gs := by
  rcases eliminate_cases run with ⟨-, rfl, -⟩ | ⟨-, -, sum, made, rfl⟩
  · exact h
  · intro f hf plain x agrees
    rcases List.mem_append.1 hf with hf | hf
    · exact h f (List.mem_of_mem_filter hf) plain x agrees
    · rw [List.mem_singleton] at hf
      subst hf
      rw [Factor.carriesUtility_sumOut made, List.any_eq_false] at plain
      rw [Factor.valueIn_sumOut made]
      apply Finset.sum_nonneg
      intro p _
      have parts : Nonneg evidence (fs.filter (·.mentions v.id)) := fun g hg =>
        h g (List.mem_of_mem_filter hg)
      exact parts.weight (fun g hg => by simpa using plain g hg) (agrees.update free p)

theorem Nonneg.maximise (wf : d.WellFormed) {state state' : Elimination Rat}
    (h : Nonneg evidence state.factors) (stage : d.Stage live 1 nodes n state.factors) {v : Variable}
    (hv : v ∈ d.vars) (decision : v.kind = .decision)
    (run : answer (Diagram.maximise state v) n = (.ok state', m)) : Nonneg evidence state'.factors := by
  rcases maximise_cases run with ⟨-, -, rfl⟩ | ⟨-, base, best, one, -, made, rfl⟩
  · exact h
  · intro f hf plain x agrees
    rcases List.mem_append.1 hf with hf | hf
    · exact h f (List.mem_of_mem_filter hf) plain x agrees
    · obtain ⟨hbase, mentions⟩ := (mentioning_one one).2 rfl
      have carries := stage.carries_of_mem wf hv decision hbase mentions
      rw [List.mem_singleton.1 hf, Factor.carriesUtility_maxOut made, carries] at plain
      cases plain

/-- Filling evidence into the tables leaves factors that are not negative. -/
theorem nonneg_start (h : d.WellFormed)
    (projected : List.Forall₂ (Projected evidence) (d.startTables evidence) gs) :
    Nonneg evidence gs := by
  intro g hg plain x agrees
  obtain ⟨f, hf, p⟩ := forall₂_right_mem projected hg
  rw [p.carriesUtility] at plain
  rw [p.value x agrees]
  rcases List.mem_append.1 hf with hf | hf
  · obtain ⟨v, -, cond⟩ := forall₂_right_mem h.conditionals ((mem_markedFactors h).1 hf).1
    exact cond.valueIn_nonneg x
  · rw [List.mem_singleton.1 hf, h.carriesUtility_utility] at plain
    cases plain

/-- A rule attains some values, and no position of its decision exceeds them. -/
structure Attains (evidence : Slots) (rule : DecisionRule Rat) (before after : World → Rat) : Prop where
  attained : ∀ x, before (Function.update x rule.decision.id (rule.position x)) = after x
  largest : ∀ x : World, x.Agrees evidence → ∀ p < rule.decision.card,
    before (Function.update x rule.decision.id p) ≤ after x

/-- When the turn of a decision comes, the factors that do not mention it do not carry the utility. -/
theorem Stage.plain_of_others (h : d.WellFormed) (stage : d.Stage live 1 nodes n fs) {v : Variable}
    (hv : v ∈ d.vars) (decision : v.kind = .decision) {base : Factor Rat}
    (one : fs.filter (·.mentions v.id) = [base]) {f : Factor Rat} (hf : f ∈ fs)
    (away : v.id ∉ f.scope.ids) : f.carriesUtility = false := by
  obtain ⟨hbase, mentions⟩ := (mentioning_one one).2 rfl
  by_contra carries
  have same := stage.carrier_unique hf hbase (by simpa using carries)
    (stage.carries_of_mem h hv decision hbase mentions)
  exact away (same ▸ mentions)

/-- Maximising a decision out keeps a rule that attains the new product. -/
theorem Stage.weight_maximise (h : d.WellFormed) {state state' : Elimination Rat}
    (stage : d.Stage live 1 nodes n state.factors) (nonneg : Nonneg evidence state.factors)
    {v : Variable} (hv : v ∈ d.vars) (decision : v.kind = .decision)
    (run : answer (Diagram.maximise state v) n = (.ok state', m)) :
    ∃ rule, state'.rules = state.rules ++ [rule] ∧ rule.decision = v ∧
      Attains evidence rule (Factor.weight state.factors) (Factor.weight state'.factors) := by
  have built : ∀ f ∈ state.factors, Factor.Built d.vars f := fun f hf =>
    stage.built f (stage.members f hf)
  rcases maximise_cases run with ⟨none_left, -, rfl⟩ | ⟨-, base, best, one, inside, made, rfl⟩
  · have same : ∀ x p, Factor.weight state.factors (Function.update x v.id p) =
        Factor.weight state.factors x := Factor.weight_update built none_left
    exact ⟨⟨v, none⟩, rfl, rfl, fun x => same x _, fun x _ p _ => le_of_eq (same x p)⟩
  · obtain ⟨hbase, mentions⟩ := (mentioning_one one).2 rfl
    let others := state.factors.filter (!·.mentions v.id)
    have away : ∀ f ∈ others, f ∈ state.factors ∧ v.id ∉ f.scope.ids := by
      intro f hf
      rwa [List.mem_filter, Bool.not_eq_true', mentions_eq_false] at hf
    have rest : ∀ x p, Factor.weight others (Function.update x v.id p) = Factor.weight others x :=
      Factor.weight_update (fun f hf => built f (away f hf).1) fun f hf => (away f hf).2
    have before : ∀ x, Factor.weight state.factors x = base.valueIn x * Factor.weight others x := by
      intro x
      rw [← Factor.weight_filter state.factors (·.mentions v.id), one, Factor.weight_singleton]
    have after : ∀ x, Factor.weight (others ++ [best]) x = best.valueIn x * Factor.weight others x := by
      intro x
      rw [Factor.weight_append, Factor.weight_singleton, mul_comm]
    have maximum := Factor.cellIn_maxOut made (h.card_pos hv)
    refine ⟨⟨v, some best⟩, rfl, rfl, fun x => ?_, fun x agrees p hp => ?_⟩
    · rw [before, after, rest]
      exact congrArg (· * _) (maximum x).2.1
    · -- the factors that are left alone are not negative, so they keep the order of the values
      rw [before, after, rest]
      apply mul_le_mul_of_nonneg_right ((maximum x).2.2.1 p hp)
      exact Nonneg.weight (fun f hf => nonneg f (away f hf).1)
        (fun f hf => stage.plain_of_others h hv decision one (away f hf).1 (away f hf).2) agrees

/-- The rules that a sweep makes: one for each decision. The sweep bounds the nested sum of every
policy, and a policy that follows the rules attains the bound. -/
structure Optimal (d : Diagram Rat) (evidence : Slots) (vars : List Variable)
    (before after : World → Rat) (made : List (DecisionRule Rat)) : Prop where
  decisions : made.map (·.decision) = vars.filter (·.isDecision)
  bound : ∀ (policy : d.Policy) (x : World), x.Agrees evidence → nest policy vars before x ≤ after x
  attained : ∀ policy : d.Policy,
    (∀ rule ∈ made, ∀ x, policy.choose rule.decision.id x = rule.position x) →
      nest policy vars before = after

variable {rest : List Variable} {before mid after : World → Rat} {made : List (DecisionRule Rat)}

theorem Optimal.chance {v : Variable} (chance : v.kind = .chance)
    (best : d.Optimal evidence rest (sumOver v before) after made) :
    d.Optimal evidence (v :: rest) before after made where
  decisions := by
    rw [best.decisions, List.filter_cons_of_neg (by rw [isDecision_eq_false.2 chance]; decide)]
  bound policy x agrees := by
    rw [nest, if_neg (by rw [isDecision_eq_false.2 chance]; decide)]
    exact best.bound policy x agrees
  attained policy follows := by
    rw [nest, if_neg (by rw [isDecision_eq_false.2 chance]; decide)]
    exact best.attained policy follows

theorem Optimal.decision {rule : DecisionRule Rat} (decision : rule.decision.kind = .decision)
    (foreseen : d.Foreseen (rule.decision :: rest))
    (free : ∀ u ∈ rest, evidence.isAssigned u.id = false) (attains : Attains evidence rule before mid)
    (best : d.Optimal evidence rest mid after made) :
    d.Optimal evidence (rule.decision :: rest) before after (rule :: made) where
  decisions := by
    rw [List.map_cons, best.decisions, List.filter_cons_of_pos (isDecision_iff.2 decision)]
  bound policy x agrees := by
    have hv := foreseen.sub rule.decision List.mem_cons_self
    rw [nest, if_pos (isDecision_iff.2 decision)]
    refine le_trans (nest_le policy foreseen.tail (R := fun y => y.Agrees evidence)
      (fun u hu y hy p _ => hy.update (free u hu) p) (fun y hy => ?_) agrees) (best.bound policy x agrees)
    exact attains.largest y hy _ (policy.inDomain rule.decision hv decision y)
  attained policy follows := by
    rw [nest, if_pos (isDecision_iff.2 decision),
      ← best.attained policy fun r hr => follows r (List.mem_cons_of_mem _ hr)]
    congr 1
    funext y
    rw [follows rule List.mem_cons_self y, attains.attained]

/-- A sweep makes optimal rules. -/
theorem weight_sweep (h : d.WellFormed) {vars : List Variable} (foreseen : d.Foreseen vars)
    (part : ∀ v ∈ vars, live v.id ∧ evidence.isAssigned v.id = false) {before after : Elimination Rat}
    (stage : d.Stage live 1 nodes n before.factors) (nonneg : Nonneg evidence before.factors)
    (run : answer (vars.foldlM sweepOne before) n = (.ok after, m)) :
    ∃ made, after.rules = before.rules ++ made ∧
      d.Optimal evidence vars (Factor.weight before.factors) (Factor.weight after.factors) made := by
  induction vars generalizing live nodes n before with
  | nil =>
    cases run
    exact ⟨[], by simp, rfl, fun _ _ _ => le_refl _, fun _ _ => rfl⟩
  | cons v rest ih =>
    rw [List.foldlM_cons, answer_bind_ok] at run
    obtain ⟨mid, k, first, run⟩ := run
    have hv := foreseen.sub v List.mem_cons_self
    obtain ⟨alive, free⟩ := part v List.mem_cons_self
    have part' : ∀ u ∈ rest, (live u.id ∧ u.id ≠ v.id) ∧ evidence.isAssigned u.id = false := fun u hu =>
      ⟨⟨(part u (List.mem_cons_of_mem _ hu)).1, foreseen.ne hu⟩, (part u (List.mem_cons_of_mem _ hu)).2⟩
    unfold sweepOne at first
    split at first
    next kind =>
      have decision := isDecision_iff.1 kind
      obtain ⟨nodes', stage', -⟩ := stage.maximise hv first
      obtain ⟨rule, rules, rfl, attains⟩ := stage.weight_maximise h nonneg hv decision first
      obtain ⟨made, e, best⟩ :=
        ih foreseen.tail part' stage' (nonneg.maximise h stage hv decision first) run
      refine ⟨rule :: made, ?_, .decision decision foreseen (fun u hu => (part' u hu).2) attains best⟩
      rw [e, rules, List.append_assoc, List.singleton_append]
    next kind =>
      have chance := isDecision_eq_false.1 (Bool.not_eq_true _ ▸ kind)
      obtain ⟨gs, l, eliminated, e⟩ := answer_bind_ok.1 first
      cases e
      obtain ⟨nodes', stage', -⟩ := stage.eliminate hv eliminated
      obtain ⟨made, e, best⟩ := ih foreseen.tail part' stage' (nonneg.eliminate free eliminated) run
      -- summing a chance variable out makes no rule; its sum is what the rules of the rest are optimal for
      have sum := stage.weight_eliminate hv chance alive eliminated
      exact ⟨made, e, .chance chance (sum ▸ best)⟩

end Diagram

end Counsel
