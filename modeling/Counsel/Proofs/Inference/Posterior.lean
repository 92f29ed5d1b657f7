/-
Queries give posterior distributions. After the ancestors' tables are eliminated in whatever order, the
weights of the positions are the masses of the worlds with that position (`weight_eq_mass`), so their
shares are the conditional probabilities in the full joint distribution. A query misses a variable of
the order exactly when a hidden ancestor is not listed (`find_remaining`), and fails on evidence exactly
when its probability is zero (`query_outcome`), which is the mass of the worlds that agree with it
(`evidenceProbability_eq`).
-/
import Counsel.Proofs.Diagram.Build
import Counsel.Proofs.Inference.Elimination
import Counsel.Proofs.Weights

namespace Counsel.Diagram

open Outcome World

variable {d : Diagram Rat}

/-- The conditional probability that a variable has a position, given the evidence. -/
def posterior (d : Diagram Rat) (evidence : Slots) (v : Variable) (p : Nat) : Rat :=
  d.mass evidence (fun x => if x v.id = p then 1 else 0) / d.mass evidence fun _ => 1

/-- The tables of marked variables that are closed under parents make up the mass of the evidence. -/
theorem mass_eq_marked (h : d.WellFormed) (rows : d.RowsSumToOne) {evidence : Slots}
    (admits : d.Admits evidence) {marks : Array Bool}
    (closed : ∀ v ∈ d.chanceVars, Marked marks v.id → ∀ p ∈ v.parents, Marked marks p)
    (seen : ∀ v ∈ d.chanceVars, evidence.isAssigned v.id = true → Marked marks v.id)
    {done : List Variable} (nodup : done.Nodup)
    (mem : ∀ v, v ∈ done ↔ v ∈ d.chanceVars ∧ d.Hidden marks evidence v.id) {g : World → Rat}
    (free : ∀ v ∈ d.chanceVars, ¬ Marked marks v.id → ∀ y p, g (Function.update y v.id p) = g y) :
    d.mass evidence g = enumerate done (fun x => Factor.weight (d.markedFactors marks) x * g x)
      evidence.world := by
  let keep : VarId → Bool := fun id => marks.getD id.index false
  have kept : ∀ v ∈ d.chanceVars, keep v.id = true → ∀ p ∈ v.parents, keep p = true := closed
  have unkept : ∀ v ∈ d.chanceVars, keep v.id = false →
      ∀ y p, g (Function.update y v.id p) = g y := fun v hv out =>
    free v hv fun marked => by rw [Marked, show marks.getD v.id.index false = false from out] at marked; cases marked
  have perm : (d.chanceVars.filter fun v => marks.getD v.id.index false &&
      !evidence.isAssigned v.id).Perm done := by
    refine (List.perm_ext_iff_of_nodup ((h.nodup_vars.filter _).filter _) nodup).2 fun v => ?_
    rw [mem, List.mem_filter, Bool.and_eq_true, Bool.not_eq_true']
    exact and_congr_right fun hv => ⟨fun k => ⟨k.2, k.1, v, hv, rfl⟩, fun k => ⟨k.2.1, k.1⟩⟩
  have tables : Factor.weight (d.markedFactors marks) =
      d.entries (d.chanceVars.filter fun v => marks.getD v.id.index false) :=
    funext fun x => weight_tables h (fun id => marks.getD id.index false) x
  rw [mass_eq h rows admits kept seen unkept, tables]
  refine congrFun (enumerate_perm perm (nodup_ids_of_subset h (fun v hv => ?_) ?_) _) _
  · exact (mem_chanceVars.1 (List.mem_of_mem_filter hv)).1
  · exact (h.nodup_vars.filter _).filter _

/-! ## The probability of the evidence -/

/-- Where no chance variable is observed, all tables sum to one. -/
theorem mass_eq_one (h : d.WellFormed) (rows : d.RowsSumToOne) {evidence : Slots}
    (admits : d.Admits evidence) (none_observed : d.observedChance evidence = []) :
    d.mass evidence (fun _ => 1) = 1 := by
  have free : ∀ v ∈ d.chanceVars, ¬ evidence.isAssigned v.id = true := by
    intro v hv assigned
    obtain ⟨hm, chance⟩ := mem_chanceVars.1 hv
    have := (mem_observedChance h hm).2 ⟨assigned, chance⟩
    rw [none_observed] at this
    cases this
  let keep : VarId → Bool := fun _ => false
  have kept : ∀ v ∈ d.chanceVars, keep v.id = true → ∀ p ∈ v.parents, keep p = true :=
    fun _ _ k => absurd k Bool.false_ne_true
  rw [mass_eq h rows admits kept (fun v hv k => absurd k (free v hv)) fun _ _ _ _ _ => rfl]
  simp [keep, enumerate, entries]

/-- Once the hidden ancestors of the evidence are eliminated, the product of what is left is the mass of
the evidence. -/
theorem productValue_eq_mass (h : d.WellFormed) (rows : d.RowsSumToOne) {evidence : Slots}
    (admits : d.Admits evidence) {n k l : Nat} {gs left : List (Factor Rat)}
    (projected : answer (project (d.markedFactors (d.behind evidence)) evidence) n = (.ok gs, k))
    (eliminated : answer ((d.hidden (d.behind evidence) evidence none d.chanceOrder.reverse).foldlM
      eliminate gs) k = (.ok left, l)) :
    Factor.productValue left evidence.world = d.mass evidence fun _ => 1 := by
  have closed := behind_closed h admits
  obtain ⟨nodes, stage, same⟩ := stage_of_project h admits closed projected
  -- what is eliminated are the hidden ancestors of the evidence, all of them
  obtain ⟨done, nodup, mem, weight⟩ :=
    weight_run h (fun v hv => ((mem_hidden h).1 hv).1) stage eliminated
  have all : ∀ v, v ∈ done ↔ v ∈ d.chanceVars ∧ d.Hidden (d.behind evidence) evidence v.id := by
    intro v
    rw [mem, mem_hidden_all h]
    exact ⟨fun k => k.1, fun k => ⟨k, k.2⟩⟩
  rw [Factor.productValue_eq, weight,
    mass_eq_marked h rows admits closed (behind_seen h admits) nodup all fun _ _ _ _ _ => rfl]
  refine enumerate_agrees (fun v hv => ((all v).1 hv).2.1) (fun y hy => ?_) (agrees_world evidence)
  rw [weight_projected same hy, mul_one]

/-- The probability of the evidence is the mass of the worlds that agree with it. -/
theorem evidenceProbability_eq (h : d.WellFormed) (rows : d.RowsSumToOne) {evidence : Slots}
    (admits : d.Admits evidence) {n m : Nat} {p : Rat}
    (run : answer (d.evidenceProbability evidence) n = (.ok p, m)) :
    p = d.mass evidence fun _ => 1 := by
  by_cases none_observed : d.observedChance evidence = []
  · rw [evidenceProbability_of_unobserved none_observed] at run
    cases run
    rw [mass_eq_one h rows admits none_observed]
  · obtain ⟨gs, k, -, projected, -⟩ := exists_stage h admits (behind_closed h admits) n
    obtain ⟨left, l, eliminated, -⟩ :=
      answer_bind_ok.1 (evidenceProbability_reduced none_observed projected ▸ run)
    rw [evidenceProbability_of_eliminated h admits none_observed projected eliminated] at run
    cases run
    exact productValue_eq_mass h rows admits projected eliminated

/-! ## Queries -/

/-- Some hidden ancestor of a variable or of the evidence is not in a list. -/
def Unlisted (d : Diagram Rat) (evidence : Slots) (v : Variable) (ids : List VarId) : Prop :=
  ∃ u ∈ d.vars, u.kind = .chance ∧ u.id ≠ v.id ∧ evidence.isAssigned u.id = false ∧
    (d.Ancestor u.id v.id ∨ ∃ t, evidence.isAssigned t = true ∧ d.Ancestor u.id t) ∧ u.id ∉ ids

/-- The variables that a query needs: the ancestors of the variable asked for and of the evidence. -/
def needed (d : Diagram Rat) (evidence : Slots) (v : Variable) : Array Bool :=
  d.ancestors (v.id :: evidence.assigned.map (·.1))

section Needed

variable {evidence : Slots} {v : Variable}

theorem marked_needed (h : d.WellFormed) (admits : d.Admits evidence) (hv : v ∈ d.vars) {id : VarId} :
    Marked (d.needed evidence v) id ↔ d.Reaches (v.id :: evidence.assigned.map (·.1)) id :=
  marked_ancestors h (List.forall_mem_cons.2 ⟨⟨v, hv, rfl⟩, fun _ ht =>
    admits.known _ (Slots.mem_assigned_ids.1 ht)⟩)

theorem needed_closed (h : d.WellFormed) (admits : d.Admits evidence) (hv : v ∈ d.vars) :
    ∀ u ∈ d.chanceVars, Marked (d.needed evidence v) u.id →
      ∀ p ∈ u.parents, Marked (d.needed evidence v) p :=
  marked_ancestors_closed h (List.forall_mem_cons.2 ⟨⟨v, hv, rfl⟩, fun _ ht =>
    admits.known _ (Slots.mem_assigned_ids.1 ht)⟩)

/-- Of the variables other than the one asked for, the unobserved chance ancestors are hidden. -/
theorem hidden_needed (h : d.WellFormed) (admits : d.Admits evidence) (hv : v ∈ d.vars)
    {u : Variable} (hu : u ∈ d.vars) (ne : u.id ≠ v.id) :
    d.Hidden (d.needed evidence v) evidence u.id ↔
      u.kind = .chance ∧ evidence.isAssigned u.id = false ∧
        (d.Ancestor u.id v.id ∨ ∃ t, evidence.isAssigned t = true ∧ d.Ancestor u.id t) := by
  unfold Hidden
  rw [marked_needed h admits hv, reaches_iff]
  constructor
  · rintro ⟨free, reach, w, hw, e⟩
    obtain ⟨hw, chance⟩ := mem_chanceVars.1 hw
    refine ⟨h.inj w hw u hu e ▸ chance, free, ?_⟩
    rcases reach with hm | ⟨t, ht, chain⟩
    · rcases List.mem_cons.1 hm with e | hm
      · exact absurd e ne
      · rw [Slots.mem_assigned_ids, free] at hm
        cases hm
    · rcases List.mem_cons.1 ht with rfl | ht
      · exact .inl chain
      · exact .inr ⟨t, Slots.mem_assigned_ids.1 ht, chain⟩
  · rintro ⟨chance, free, chain⟩
    refine ⟨free, .inr ?_, u, mem_chanceVars.2 ⟨hu, chance⟩, rfl⟩
    rcases chain with chain | ⟨t, ht, chain⟩
    · exact ⟨v.id, List.mem_cons_self, chain⟩
    · exact ⟨t, List.mem_cons_of_mem _ (Slots.mem_assigned_ids.2 ht), chain⟩

theorem unlisted_iff (h : d.WellFormed) (admits : d.Admits evidence) (hv : v ∈ d.vars)
    {ids : List VarId} : d.Unlisted evidence v ids ↔
      ∃ u ∈ d.vars, u.id ≠ v.id ∧ d.Hidden (d.needed evidence v) evidence u.id ∧ u.id ∉ ids := by
  constructor
  · rintro ⟨u, hu, chance, ne, free, chain, out⟩
    exact ⟨u, hu, ne, (hidden_needed h admits hv hu ne).2 ⟨chance, free, chain⟩, out⟩
  · rintro ⟨u, hu, ne, hidden, out⟩
    obtain ⟨chance, free, chain⟩ := (hidden_needed h admits hv hu ne).1 hidden
    exact ⟨u, hu, chance, ne, free, chain, out⟩

theorem mem_hidden_of_complete (h : d.WellFormed) (admits : d.Admits evidence) (hv : v ∈ d.vars)
    {ids : List VarId} (complete : ¬ d.Unlisted evidence v ids) {u : Variable} :
    u ∈ d.hidden (d.needed evidence v) evidence (some v.id) ids ↔
      u ∈ d.chanceVars ∧ d.Hidden (d.needed evidence v) evidence u.id ∧ u ≠ v := by
  rw [mem_hidden h]
  constructor
  · exact fun k => ⟨k.1, k.2.1, fun e => k.2.2.2 (e ▸ rfl)⟩
  · rintro ⟨hu, hidden, ne⟩
    have hm := (mem_chanceVars.1 hu).1
    have ne : u.id ≠ v.id := fun e => ne (h.inj u hm v hv e)
    refine ⟨hu, hidden, ?_, fun e => ne (Option.some.inj e)⟩
    by_contra out
    exact complete ((unlisted_iff h admits hv).2 ⟨u, hm, ne, hidden, out⟩)

/-- With the listed hidden variables summed out, a variable is left besides the one asked for exactly
when a hidden ancestor is not listed. -/
theorem find_remaining (h : d.WellFormed) (admits : d.Admits evidence) (hv : v ∈ d.vars)
    {ids : List VarId} {carriers n : Nat} {nodes : Factor Rat → Prop} {left : List (Factor Rat)}
    (stage : d.Stage (fun id => d.Hidden (d.needed evidence v) evidence id ∧
      id ∉ (d.hidden (d.needed evidence v) evidence (some v.id) ids).map (·.id))
      carriers nodes n left) :
    ((left.flatMap (·.scope.vars)).find? (·.id != v.id)).isSome = true ↔ d.Unlisted evidence v ids := by
  rw [List.find?_isSome, unlisted_iff h admits hv]
  constructor
  · rintro ⟨u, hu, ne⟩
    obtain ⟨f, hf, hu⟩ := List.mem_flatMap.1 hu
    have ne : u.id ≠ v.id := by simpa using ne
    have hm := (stage.built f (stage.members f hf)).mem_vars u hu
    obtain ⟨hidden, gone⟩ := stage.live_of_mem f hf u.id (Scope.mem_ids.2 ⟨u, hu, rfl⟩)
    refine ⟨u, hm, ne, hidden, fun hin => gone (List.mem_map.2 ⟨u, (mem_hidden h).2 ?_, rfl⟩)⟩
    obtain ⟨w, hw, e⟩ := hidden.2.2
    have same := h.inj w (mem_chanceVars.1 hw).1 u hm e
    exact ⟨same ▸ hw, hidden, hin, fun e => ne (Option.some.inj e)⟩
  · rintro ⟨u, hu, ne, hidden, out⟩
    obtain ⟨w, hw, e⟩ := hidden.2.2
    have chance := h.inj w (mem_chanceVars.1 hw).1 u hu e ▸ (mem_chanceVars.1 hw).2
    have kept : u.id ∉ (d.hidden (d.needed evidence v) evidence (some v.id) ids).map (·.id) := by
      intro hm
      obtain ⟨x, hx, e⟩ := List.mem_map.1 hm
      exact out (e ▸ ((mem_hidden h).1 hx).2.2.1)
    obtain ⟨f, hf, hid⟩ := stage.held u hu chance ⟨hidden, kept⟩
    obtain ⟨x, hx, e⟩ := Scope.mem_ids.1 hid
    exact ⟨x, List.mem_flatMap.2 ⟨f, hf, hx⟩, by simpa [e] using ne⟩

end Needed

/-- What is left to do after an elimination: the shares of the variable asked for are read off. -/
def readOff (v : Variable) (left : List (Factor Rat)) : Infer (Marginal Rat) :=
  match (left.flatMap (·.scope.vars)).find? (·.id != v.id) with
  | some u => throw (.incompleteOrder u.name)
  | none => do
    let weights ← Infer.ofModel (Evaluate.answerFrom Slots.empty (weights left v))
    match Scalar.normalize weights with
    | none => throw .zeroEvidence
    | some probabilities => return ⟨v.name, v.domain.zip probabilities⟩

/-- With the evidence filled in, a query eliminates the hidden variables and reads the shares off. -/
theorem query_reduced (h : d.WellFormed) {v : Variable} (hv : v ∈ d.vars) (chance : v.kind = .chance)
    {observations : Assignment} {evidence : Slots} (valid : d.slotsOf observations = .ok evidence)
    (free : evidence.get? v.id = none) (order : Option EliminationOrder) {n k : Nat}
    {gs : List (Factor Rat)}
    (projected : answer (project (d.markedFactors (d.needed evidence v)) evidence) n = (.ok gs, k)) :
    answer (d.query v.name observations order) n = answer ((d.hidden (d.needed evidence v) evidence
      (some v.id) (order.getD (.reverseTopological d)).ids).foldlM eliminate gs >>= readOff v) k := by
  have found : d.lookup v.name = .ok v := h.lookup_eq_ok.2 ⟨hv, rfl⟩
  have decision : v.isDecision = false := isDecision_eq_false.2 chance
  unfold needed at projected ⊢
  unfold query
  rw [found, answer_bind_of_ok (answer_ofModel_ok v n)]
  simp only [decision, Bool.false_eq_true, if_false]
  rw [valid, answer_bind_of_ok (answer_ofModel_ok evidence n)]
  simp only [free]
  rw [answer_bind_of_ok projected]
  refine congrArg (fun rest => answer (_ >>= rest) k) (funext fun left => ?_)
  unfold readOff
  cases (left.flatMap (·.scope.vars)).find? (·.id != v.id) with
  | some u => rfl
  | none =>
    refine congrArg (_ >>= ·) (funext fun shares => ?_)
    cases Scalar.normalize shares <;> rfl

/-- Once the hidden ancestors are eliminated, the mass of a function of the variable asked for is the sum
over its positions of the eliminated tables with the function. -/
theorem mass_eq_positions (h : d.WellFormed) (rows : d.RowsSumToOne) {evidence : Slots}
    (admits : d.Admits evidence) {marks : Array Bool}
    (closed : ∀ v ∈ d.chanceVars, Marked marks v.id → ∀ p ∈ v.parents, Marked marks p)
    (seen : ∀ v ∈ d.chanceVars, evidence.isAssigned v.id = true → Marked marks v.id)
    {v : Variable} (hv : v ∈ d.chanceVars) (hidden : d.Hidden marks evidence v.id)
    {done : List Variable} (nodup : done.Nodup)
    (mem : ∀ u, u ∈ done ↔ u ∈ d.chanceVars ∧ d.Hidden marks evidence u.id ∧ u ≠ v) (g : Nat → Rat) :
    d.mass evidence (fun x => g (x v.id)) = ∑ p ∈ Finset.range v.card,
      g p * enumerate done (Factor.weight (d.markedFactors marks))
        (Function.update evidence.world v.id p) := by
  have nodup' : (done ++ [v]).Nodup := by
    refine List.nodup_append.2 ⟨nodup, List.nodup_singleton v, fun a ha b hb e => ?_⟩
    rw [List.mem_singleton] at hb
    exact ((mem a).1 ha).2.2 (e.trans hb)
  have mem' : ∀ u, u ∈ done ++ [v] ↔ u ∈ d.chanceVars ∧ d.Hidden marks evidence u.id := by
    intro u
    rw [List.mem_append, List.mem_singleton, mem]
    constructor
    · rintro (k | rfl)
      · exact ⟨k.1, k.2.1⟩
      · exact ⟨hv, hidden⟩
    · rintro ⟨hu, hl⟩
      by_cases e : u = v
      · exact .inr e
      · exact .inl ⟨hu, hl, e⟩
  have fresh : ∀ u ∈ done, u.id ≠ v.id := fun u hu e => ((mem u).1 hu).2.2
    (h.inj u (mem_chanceVars.1 ((mem u).1 hu).1).1 v (mem_chanceVars.1 hv).1 e)
  have unmoved : ∀ u ∈ d.chanceVars, ¬ Marked marks u.id → ∀ (y : World) p,
      g (Function.update y u.id p v.id) = g (y v.id) := by
    intro u _ out y p
    have ne : v.id ≠ u.id := fun e => out (e ▸ hidden.2.1)
    rw [Function.update_of_ne ne]
  rw [mass_eq_marked h rows admits closed seen nodup' mem' unmoved, enumerate_append]
  show ∑ p ∈ Finset.range v.card, enumerate done _ _ = _
  apply Finset.sum_congr rfl
  intro p _
  -- the sum over the other variables leaves the position of this one alone
  refine (enumerate_congr (update_fresh fresh) (fun y hy => ?_) (Function.update_self v.id p _)).trans
    (enumerate_mul (k := fun _ => g p) (fun _ _ _ _ => rfl) _ _)
  rw [hy, mul_comm]

/-- Once the hidden ancestors are eliminated, the weight of a position is the mass of the worlds with
that position. -/
theorem weight_eq_mass (h : d.WellFormed) (rows : d.RowsSumToOne) {evidence : Slots}
    (admits : d.Admits evidence) {marks : Array Bool}
    (closed : ∀ v ∈ d.chanceVars, Marked marks v.id → ∀ p ∈ v.parents, Marked marks p)
    (seen : ∀ v ∈ d.chanceVars, evidence.isAssigned v.id = true → Marked marks v.id)
    {v : Variable} (hv : v ∈ d.chanceVars) (hidden : d.Hidden marks evidence v.id)
    {done : List Variable} (nodup : done.Nodup)
    (mem : ∀ u, u ∈ done ↔ u ∈ d.chanceVars ∧ d.Hidden marks evidence u.id ∧ u ≠ v)
    {gs left : List (Factor Rat)} (same : List.Forall₂ (Projected evidence) (d.markedFactors marks) gs)
    (weight : Factor.weight left = enumerate done (Factor.weight gs)) {p : Nat} (hp : p < v.card) :
    Factor.weight left (Function.update evidence.world v.id p) =
      d.mass evidence fun x => if x v.id = p then 1 else 0 := by
  have value : Factor.weight left (Function.update evidence.world v.id p) =
      enumerate done (Factor.weight (d.markedFactors marks)) (Function.update evidence.world v.id p) := by
    rw [weight]
    exact enumerate_agrees (fun u hu => ((mem u).1 hu).2.1.1) (fun y hy => weight_projected same hy)
      ((agrees_world evidence).update hidden.1 p)
  rw [mass_eq_positions h rows admits closed seen hv hidden nodup mem fun q => if q = p then 1 else 0,
    value]
  simp [hp]

/-! ## Shares -/

/-- The masses of the positions of a variable add up to the mass of the evidence. -/
theorem sum_masses (h : d.WellFormed) {evidence : Slots} (admits : d.Admits evidence) {v : Variable}
    (hv : v ∈ d.vars) : ((List.range v.card).map fun p => d.mass evidence fun x =>
      if x v.id = p then 1 else 0).sum = d.mass evidence fun _ => 1 := by
  have range : evidence.world.InRange d.vars := h.world_inRange admits.within
  show ∑ p ∈ Finset.range v.card, _ = _
  unfold mass
  rw [← enumerate_sum]
  refine enumerate_congr (R := fun y => y.InRange d.vars)
    (fun u hu _ hy _ hp => hy.update h.inj (mem_chanceVars.1 hu).1 hp) (fun y hy => ?_) range
  -- in each world the variable has one position
  rw [Finset.sum_eq_single_of_mem (y v.id) (Finset.mem_range.2 (hy v hv))]
  · simp
  · intro p _ ne
    simp [Ne.symm ne]

theorem sum_posterior (h : d.WellFormed) {evidence : Slots} (admits : d.Admits evidence) {v : Variable}
    (hv : v ∈ d.vars) (likely : d.mass evidence (fun _ => 1) ≠ 0) :
    ((List.range v.card).map (d.posterior evidence v)).sum = 1 := by
  unfold posterior
  simp only [div_eq_mul_inv]
  rw [List.sum_map_mul_right, sum_masses h admits hv, mul_inv_cancel₀ likely]

/-- The shares of the masses are the posterior probabilities, unless the evidence has no mass. -/
theorem normalize_masses (h : d.WellFormed) {evidence : Slots} (admits : d.Admits evidence)
    {v : Variable} (hv : v ∈ d.vars) :
    Scalar.normalize ((List.range v.card).map fun p => d.mass evidence fun x =>
      if x v.id = p then 1 else 0) =
    if d.mass evidence (fun _ => 1) = 0 then none
    else some ((List.range v.card).map (d.posterior evidence v)) := by
  have nonneg : 0 ≤ d.mass evidence fun _ => 1 := mass_nonneg h evidence fun _ => zero_le_one
  rw [Scalar.normalize_eq, sum_masses h admits hv]
  by_cases zero : d.mass evidence (fun _ => 1) = 0
  · rw [if_pos zero, if_neg (by rw [zero]; exact lt_irrefl 0)]
  · rw [if_neg zero, if_pos (lt_of_le_of_ne nonneg (Ne.symm zero)), List.map_map]
    rfl

/-- What a query answers once it has eliminated the hidden variables of the order: it misses a variable
when a hidden ancestor is not listed, fails when the evidence has no probability, and gives the posterior
probabilities otherwise. -/
theorem query_of_eliminated (h : d.WellFormed) (rows : d.RowsSumToOne) {v : Variable} (hv : v ∈ d.vars)
    (chance : v.kind = .chance) {observations : Assignment} {evidence : Slots}
    (valid : d.slotsOf observations = .ok evidence) (free : evidence.isAssigned v.id = false)
    (order : Option EliminationOrder) {n k l : Nat} {gs left : List (Factor Rat)}
    (projected : answer (project (d.markedFactors (d.needed evidence v)) evidence) n = (.ok gs, k))
    (eliminated : answer ((d.hidden (d.needed evidence v) evidence (some v.id)
      (order.getD (.reverseTopological d)).ids).foldlM eliminate gs) k = (.ok left, l)) :
    (d.Unlisted evidence v (order.getD (.reverseTopological d)).ids →
      ∃ name, (answer (d.query v.name observations order) n).1 = .error (.incompleteOrder name)) ∧
    (¬ d.Unlisted evidence v (order.getD (.reverseTopological d)).ids →
      (answer (d.query v.name observations order) n).1 =
        if d.mass evidence (fun _ => 1) = 0 then .error .zeroEvidence
        else .ok ⟨v.name, v.domain.zip ((List.range v.card).map (d.posterior evidence v))⟩) := by
  have admits := h.admits_of_slotsOf valid
  have hc := mem_chanceVars.2 ⟨hv, chance⟩
  have closed := needed_closed h admits hv
  have asked : d.Hidden (d.needed evidence v) evidence v.id :=
    ⟨free, (marked_needed h admits hv).2 (.target List.mem_cons_self), v, hc, rfl⟩
  have seen : ∀ u ∈ d.chanceVars, evidence.isAssigned u.id = true →
      Marked (d.needed evidence v) u.id := fun u _ assigned => (marked_needed h admits hv).2
    (.target (List.mem_cons_of_mem _ (Slots.mem_assigned_ids.2 assigned)))
  obtain ⟨nodes, stage, same⟩ := stage_of_project h admits closed projected
  rw [query_reduced h hv chance valid (Slots.isAssigned_eq_false.1 free) order projected,
    answer_bind_of_ok eliminated]
  unfold readOff
  generalize (order.getD (.reverseTopological d)).ids = ids at eliminated ⊢
  have sub : ∀ u ∈ d.hidden (d.needed evidence v) evidence (some v.id) ids, u ∈ d.chanceVars :=
    fun u hu => ((mem_hidden h).1 hu).1
  obtain ⟨nodes', last⟩ := stage_run (fun u hu => (mem_chanceVars.1 (sub u hu)).1) stage eliminated
  obtain ⟨done, nodup, mem, weight⟩ := weight_run h sub stage eliminated
  have remaining := find_remaining h admits hv last
  cases found : (left.flatMap (·.scope.vars)).find? (·.id != v.id) with
  | some u =>
    rw [found] at remaining
    exact ⟨fun _ => ⟨u.name, rfl⟩, fun complete => absurd (remaining.1 rfl) complete⟩
  | none =>
    rw [found] at remaining
    have complete : ¬ d.Unlisted evidence v ids := fun out => nomatch remaining.2 out
    have all : ∀ u, u ∈ done ↔
        u ∈ d.chanceVars ∧ d.Hidden (d.needed evidence v) evidence u.id ∧ u ≠ v := by
      intro u
      rw [mem, mem_hidden_of_complete h admits hv complete]
      exact ⟨fun k => k.1, fun k => ⟨k, k.2.1⟩⟩
    have only : ∀ f ∈ left, ∀ id ∈ f.scope.ids, id = v.id := by
      intro f hf id hid
      obtain ⟨u, hu, rfl⟩ := Scope.mem_ids.1 hid
      simpa using List.find?_eq_none.1 found u (List.mem_flatMap.2 ⟨f, hf, hu⟩)
    have range : evidence.world.InRange d.vars := h.world_inRange admits.within
    have weights : Evaluate.answerFrom Slots.empty (weights left v) =
        .ok ((List.range v.card).map fun p => d.mass evidence fun x => if x v.id = p then 1 else 0) := by
      rw [Factor.answerFrom_weights last.toGraph last.members hv only range]
      congr 1
      apply List.map_congr_left
      intro p hp
      rw [Factor.productValue_eq, weight_eq_mass h rows admits closed seen hc asked nodup all same weight
        (List.mem_range.1 hp)]
    -- the shares of these masses are the posterior probabilities
    refine ⟨fun out => absurd out complete, fun _ => ?_⟩
    simp only
    rw [weights, answer_bind_of_ok (answer_ofModel_ok _ _), normalize_masses h admits hv]
    split_ifs <;> rfl

/-- What a query answers where all variables fit together. -/
theorem query_outcome (h : d.WellFormed) (rows : d.RowsSumToOne) (fits : d.Fits) {v : Variable}
    (hv : v ∈ d.vars) (chance : v.kind = .chance) {observations : Assignment} {evidence : Slots}
    (valid : d.slotsOf observations = .ok evidence) (free : evidence.isAssigned v.id = false)
    (order : Option EliminationOrder) (n : Nat) :
    (d.Unlisted evidence v (order.getD (.reverseTopological d)).ids →
      ∃ name, (answer (d.query v.name observations order) n).1 = .error (.incompleteOrder name)) ∧
    (¬ d.Unlisted evidence v (order.getD (.reverseTopological d)).ids →
      (answer (d.query v.name observations order) n).1 =
        if d.mass evidence (fun _ => 1) = 0 then .error .zeroEvidence
        else .ok ⟨v.name, v.domain.zip ((List.range v.card).map (d.posterior evidence v))⟩) := by
  have admits := h.admits_of_slotsOf valid
  obtain ⟨gs, k, nodes, projected, stage, -⟩ := exists_stage h admits (needed_closed h admits hv) n
  obtain ⟨left, l, eliminated⟩ := exists_run h fits
    (fun u hu => (mem_chanceVars.1 ((mem_hidden h).1 hu).1).1) stage
  exact query_of_eliminated h rows hv chance valid free order projected eliminated

/-- A query that has an answer did not miss a variable, the evidence has some probability, and the answer
is the posterior probabilities; before, it eliminated the hidden variables of the order. -/
theorem marginal_of_query (h : d.WellFormed) (rows : d.RowsSumToOne) {v : Variable} (hv : v ∈ d.vars)
    (chance : v.kind = .chance) {observations : Assignment} {evidence : Slots}
    (valid : d.slotsOf observations = .ok evidence) (free : evidence.isAssigned v.id = false)
    {order : Option EliminationOrder} {n : Nat} {marginal : Marginal Rat}
    (answered : (answer (d.query v.name observations order) n).1 = .ok marginal) :
    d.mass evidence (fun _ => 1) ≠ 0 ∧
      marginal = ⟨v.name, v.domain.zip ((List.range v.card).map (d.posterior evidence v))⟩ ∧
      ∃ gs k left l,
        answer (project (d.markedFactors (d.needed evidence v)) evidence) n = (.ok gs, k) ∧
        answer ((d.hidden (d.needed evidence v) evidence (some v.id)
          (order.getD (.reverseTopological d)).ids).foldlM eliminate gs) k = (.ok left, l) := by
  have admits := h.admits_of_slotsOf valid
  obtain ⟨gs, k, -, projected, -⟩ := exists_stage h admits (needed_closed h admits hv) n
  have reduced := query_reduced h hv chance valid (Slots.isAssigned_eq_false.1 free) order projected
  rcases run : answer ((d.hidden (d.needed evidence v) evidence (some v.id)
    (order.getD (.reverseTopological d)).ids).foldlM eliminate gs) k with ⟨e | left, l⟩
  · rw [reduced, answer_bind_of_error run] at answered
    cases answered
  · obtain ⟨missed, complete⟩ :=
      query_of_eliminated h rows hv chance valid free order projected run
    have listed : ¬ d.Unlisted evidence v (order.getD (.reverseTopological d)).ids := by
      intro out
      obtain ⟨name, e⟩ := missed out
      cases answered.symm.trans e
    rw [complete listed] at answered
    split at answered
    next => cases answered
    next likely => exact ⟨likely, (Except.ok.inj answered).symm, gs, k, left, l, projected, run⟩

/-- A query along any order: it misses a variable exactly when a hidden ancestor is not listed;
otherwise it fails exactly on evidence without probability; and otherwise it gives the conditional
probabilities in the full joint distribution, which sum to one. -/
theorem query_posterior {decl : Declaration Rat} (built : decl.build = .ok d) (rows : d.RowsSumToOne)
    (fits : d.Fits) {v : Variable} (hv : v ∈ d.vars) (chance : v.kind = .chance)
    {observations : Assignment} {evidence : Slots} (valid : d.slotsOf observations = .ok evidence)
    (asked : observations.get? v.name = none) (order : Option EliminationOrder) (n : Nat) :
    ((∃ name, (answer (d.query v.name observations order) n).1 = .error (.incompleteOrder name)) ↔
      d.Unlisted evidence v (order.getD (.reverseTopological d)).ids) ∧
    (¬ d.Unlisted evidence v (order.getD (.reverseTopological d)).ids →
      ((answer (d.query v.name observations order) n).1 = .error .zeroEvidence ↔
        d.mass evidence (fun _ => 1) = 0) ∧
      (d.mass evidence (fun _ => 1) ≠ 0 →
        (answer (d.query v.name observations order) n).1 =
          .ok ⟨v.name, v.domain.zip ((List.range v.card).map (d.posterior evidence v))⟩ ∧
        ((List.range v.card).map (d.posterior evidence v)).sum = 1)) := by
  have h := Declaration.wellFormed_of_build built
  have admits := h.admits_of_slotsOf valid
  have free : evidence.isAssigned v.id = false := by
    have := h.isAssigned_slotsOf valid hv
    rw [asked] at this
    simpa using this
  obtain ⟨missed, complete⟩ := query_outcome h rows fits hv chance valid free order n
  refine ⟨⟨?_, missed⟩, fun listed => ?_⟩
  · rintro ⟨name, e⟩
    by_contra listed
    rw [complete listed] at e
    split at e <;> cases e
  · rw [complete listed]
    by_cases zero : d.mass evidence (fun _ => 1) = 0
    · rw [if_pos zero]
      exact ⟨⟨fun _ => zero, fun _ => rfl⟩, fun likely => absurd zero likely⟩
    · rw [if_neg zero]
      exact ⟨⟨fun e => (nomatch e), fun e => absurd e zero⟩,
        fun likely => ⟨rfl, sum_posterior h admits hv likely⟩⟩

/-- Whether to take an umbrella, after a forecast. -/
def umbrella : Declaration Rat where
  vars := [⟨"Weather", .chance, [.text "sun", .text "rain"], []⟩,
    ⟨"Forecast", .chance, [.text "sunny", .text "rainy"], []⟩,
    ⟨"Umbrella", .decision, Value.boolean, ["Forecast"]⟩]
  cpts := [⟨"Weather", [], [7/10, 3/10]⟩, ⟨"Forecast", ["Weather"], [8/10, 2/10, 3/10, 7/10]⟩]
  utilities := [⟨["Weather", "Umbrella"], [100, 20, 0, 70]⟩]

def umbrellaDiagram : Diagram Rat := umbrella.build.toOption.get (by decide +kernel)

theorem build_umbrella : umbrella.build = .ok umbrellaDiagram := eq_ok_get _

theorem rows_umbrella : umbrellaDiagram.RowsSumToOne :=
  rowsSumToOne_of_rowSums (by decide +kernel)

/-- The weather after a rainy forecast, from the joint distribution. -/
theorem posterior_umbrella : ∃ v ∈ umbrellaDiagram.vars, ∃ evidence, v.name = "Weather" ∧
    umbrellaDiagram.slotsOf (NameMap.ofList [("Forecast", .text "rainy")]) = .ok evidence ∧
    (answer (umbrellaDiagram.query v.name (NameMap.ofList [("Forecast", .text "rainy")]) none) 0).1 =
      .ok ⟨v.name, v.domain.zip ((List.range v.card).map (umbrellaDiagram.posterior evidence v))⟩ := by
  let v : Variable := ⟨⟨0⟩, "Weather", .chance, [.text "sun", .text "rain"], []⟩
  have hv : v ∈ umbrellaDiagram.vars := by decide +kernel
  have valid := @eq_ok_get _ _
    (umbrellaDiagram.slotsOf (NameMap.ofList [("Forecast", .text "rainy")])) (by decide +kernel)
  have answered : (answer (umbrellaDiagram.query v.name (NameMap.ofList [("Forecast", .text "rainy")])
      none) 0).1.toOption.map (·.name) = some "Weather" := by decide +kernel
  obtain ⟨marginal, m, run, -⟩ := answer_of_map answered
  obtain ⟨listed, rest⟩ := query_posterior build_umbrella rows_umbrella (by unfold Fits; decide +kernel)
    hv rfl valid (by decide +kernel) none 0
  rw [run] at listed rest
  obtain ⟨zero, given⟩ := rest fun out => nomatch listed.2 out
  refine ⟨v, hv, _, rfl, valid, ?_⟩
  rw [run]
  exact (given fun e => nomatch zero.2 e).1

end Counsel.Diagram
