/-
How advice is weighed. Each expert's advice credits the action that it names with the expert's reliability
and every other action with an equal part of the rest, and what all the advice together makes of an action
is the product (`Layout.support`). The posterior is made of these products (`TrustAgent.posterior_eq_ok`),
so the order of the experts does not count (`TrustAgent.heard_rename`), and an expert that is trusted more
takes the action that it names further (`Layout.support_cross`).
-/
import Counsel.Proofs.Listing
import Counsel.Proofs.Trust.Ready
import Counsel.Proofs.Trust.Run
import Counsel.Proofs.Weights

namespace Counsel

open Outcome

/-! ## Credit -/

namespace Layout

section Scalar

variable {α : Type} [Scalar α]

/-- How likely an expert of reliability `rho` is to give this advice, if an action is the best one. -/
def credit (actions : Layout) (rho : α) (advice action : Assignment) : α :=
  if actions.Agree advice action then rho else (1 - rho) / Scalar.ofNat (actions.size - 1)

/-- How likely all the advice is, if an action is the best one. -/
def support (actions : Layout) (advices : List (α × Assignment)) (action : Assignment) : α :=
  advices.foldl (fun likely e => likely * actions.credit e.1 e.2 action) 1

/-- What the advice makes of the actions, in their order. Nothing if there is no advice, or if it rules
out every action. -/
def weighed (actions : Layout) (advices : List (α × Assignment)) : Option (List α) :=
  if advices = [] then none else Scalar.normalize (actions.assignments.map (actions.support advices))

theorem credit_of_agree {actions : Layout} {rho : α} {advice action : Assignment}
    (agree : actions.Agree advice action) : actions.credit rho advice action = rho :=
  if_pos agree

end Scalar

variable {actions : Layout} {advices : List (Rat × Assignment)} {advice action : Assignment} {rho : Rat}

theorem support_eq_prod :
    actions.support advices action = (advices.map fun e => actions.credit e.1 e.2 action).prod := by
  rw [List.prod_eq_foldl, List.foldl_map]
  rfl

theorem credit_nonneg (nonneg : 0 ≤ rho) (le_one : rho ≤ 1) : 0 ≤ actions.credit rho advice action := by
  unfold credit
  split
  · exact nonneg
  · exact div_nonneg (sub_nonneg.2 le_one) (Nat.cast_nonneg _)

theorem support_nonneg (credible : ∀ e ∈ advices, 0 ≤ e.1 ∧ e.1 ≤ 1) :
    0 ≤ actions.support advices action := by
  rw [support_eq_prod]
  exact List.prod_nonneg
    (List.forall_mem_map.2 fun e he => credit_nonneg (credible e he).1 (credible e he).2)

/-- An action that one piece of advice rules out is ruled out. -/
theorem support_eq_zero :
    actions.support advices action = 0 ↔ ∃ e ∈ advices, actions.credit e.1 e.2 action = 0 := by
  rw [support_eq_prod, List.prod_eq_zero_iff, List.mem_map]

theorem weighed_perm {advices' : List (Rat × Assignment)} (same : advices'.Perm advices) :
    actions.weighed advices' = actions.weighed advices := by
  have supports : actions.support advices' = actions.support advices := by
    funext action
    rw [support_eq_prod, support_eq_prod, (same.map _).prod_eq]
  unfold weighed
  rw [supports]
  simp only [← List.length_eq_zero_iff, same.length_eq]

/-- What credible advice makes of the actions is a distribution over them. -/
theorem weighed_shares (credible : ∀ e ∈ advices, 0 ≤ e.1 ∧ e.1 ≤ 1) {shares : List Rat}
    (h : actions.weighed advices = some shares) :
    shares.length = actions.assignments.length ∧ (∀ x ∈ shares, 0 ≤ x) ∧ shares.sum = 1 := by
  unfold weighed at h
  split at h
  · cases h
  · have shares_of := Scalar.normalize_shares
      (List.forall_mem_map.2 fun _ _ => support_nonneg credible) h
    rwa [List.length_map] at shares_of

theorem weighed_eq_none (credible : ∀ e ∈ advices, 0 ≤ e.1 ∧ e.1 ≤ 1) :
    actions.weighed advices = none ↔ advices = [] ∨
      ∀ action ∈ actions.assignments, ∃ e ∈ advices, actions.credit e.1 e.2 action = 0 := by
  unfold weighed
  split
  next silent => simp [silent]
  next some_advice =>
    rw [Scalar.normalize_eq_none (List.forall_mem_map.2 fun _ _ => support_nonneg credible),
      List.forall_mem_map, or_iff_right some_advice]
    simp only [support_eq_zero]

/-! ### An expert that is trusted more -/

section More

variable {pre post : List (Rat × Assignment)} {rho' : Rat}

/-- The advice of one expert is set apart. -/
theorem support_middle (action : Assignment) :
    actions.support (pre ++ (rho, advice) :: post) action =
      actions.support (pre ++ post) action * actions.credit rho advice action := by
  rw [support_eq_prod, List.map_append, List.map_cons, List.prod_append, List.prod_cons, support_eq_prod,
    List.map_append, List.prod_append]
  ring

/-- More trust in an expert is worth more to the action that it names than to any other. -/
theorem credit_cross (le : rho ≤ rho') {named : Assignment} (agree : actions.Agree advice named)
    (action : Assignment) :
    actions.credit rho advice named * actions.credit rho' advice action ≤
      actions.credit rho' advice named * actions.credit rho advice action := by
  rw [credit_of_agree agree, credit_of_agree agree, credit, credit]
  split
  · exact (mul_comm rho rho').le
  · rw [← mul_div_assoc, ← mul_div_assoc]
    refine div_le_div_of_nonneg_right ?_ (Nat.cast_nonneg _)
    linarith [mul_comm rho rho']

theorem support_cross (credible : ∀ e ∈ pre ++ post, 0 ≤ e.1 ∧ e.1 ≤ 1) (le : rho ≤ rho')
    {named : Assignment} (agree : actions.Agree advice named) (action : Assignment) :
    actions.support (pre ++ (rho, advice) :: post) named *
        actions.support (pre ++ (rho', advice) :: post) action ≤
      actions.support (pre ++ (rho', advice) :: post) named *
        actions.support (pre ++ (rho, advice) :: post) action := by
  have rest_nonneg : ∀ action, 0 ≤ actions.support (pre ++ post) action := fun _ => support_nonneg credible
  simp only [support_middle]
  calc actions.support (pre ++ post) named * actions.credit rho advice named *
        (actions.support (pre ++ post) action * actions.credit rho' advice action)
      = actions.support (pre ++ post) named * actions.support (pre ++ post) action *
          (actions.credit rho advice named * actions.credit rho' advice action) := by
        rw [mul_mul_mul_comm]
    _ ≤ actions.support (pre ++ post) named * actions.support (pre ++ post) action *
          (actions.credit rho' advice named * actions.credit rho advice action) :=
        mul_le_mul_of_nonneg_left (credit_cross le agree action)
          (mul_nonneg (rest_nonneg named) (rest_nonneg action))
    _ = _ := by rw [mul_mul_mul_comm]

/-- An expert that is trusted more takes the action that it names further. -/
theorem weighed_le_weighed (credible : ∀ e ∈ pre ++ post, 0 ≤ e.1 ∧ e.1 ≤ 1) (le : rho ≤ rho')
    {i : Nat} (read : actions.indexOf advice = .ok i) (distinct : actions.Distinct)
    {shares shares' : List Rat}
    (h : actions.weighed (pre ++ (rho, advice) :: post) = some shares)
    (h' : actions.weighed (pre ++ (rho', advice) :: post) = some shares') :
    ∃ x y, shares[i]? = some x ∧ shares'[i]? = some y ∧ x ≤ y := by
  have some_advice : ∀ rho : Rat, pre ++ (rho, advice) :: post ≠ [] := by simp
  rw [weighed, if_neg (some_advice _)] at h h'
  obtain ⟨named, there, index⟩ := forall₂_right_getElem? (indexOf_assignments distinct)
    (List.getElem?_range (indexOf_lt read))
  have agree : actions.Agree advice named := agree_of_indexOf read index
  exact Scalar.normalize_le_normalize there (fun other _ => support_cross credible le agree other) h h'

end More

end Layout

namespace TrustAgent

variable {α γ : Type} [Scalar α] {actions : Layout} {advices : List (α × Assignment)}

/-! ## Likelihoods -/

/-- What is weighed by index is the credit of the action with that index. -/
theorem likelihood_eq {rho : α} {advice action : Assignment} {i j : Nat}
    (advised : actions.indexOf advice = .ok j) (index : actions.indexOf action = .ok i) :
    likelihood actions.size rho j i = actions.credit rho advice action := by
  have agree : actions.Agree advice action ↔ i = j := by
    rw [Layout.agree_iff advised index]
    exact eq_comm
  unfold likelihood Layout.credit
  simp only [agree]
  split
  · rfl
  · -- there are two indices, so more than one action
    have two : 1 < actions.size := by
      have := Layout.indexOf_lt advised
      have := Layout.indexOf_lt index
      omega
    rw [if_pos two]

theorem getElem?_foldl_weigh {n : Nat} {named : List (α × Nat)} {weights : List α} (i : Nat) :
    (named.foldl (fun weights e => weigh n weights e.1 e.2) weights)[i]? =
      weights[i]?.map fun w => named.foldl (fun w e => w * likelihood n e.1 e.2 i) w := by
  induction named generalizing weights with
  | nil => simp
  | cons e rest ih =>
    rw [List.foldl_cons, ih, weigh, List.getElem?_map, List.getElem?_zipIdx]
    cases weights[i]? with
    | none => rfl
    | some w => simp

/-- Advice is as likely by index as it is by name. -/
theorem foldl_likelihood {action : Assignment} {i : Nat} (index : actions.indexOf action = .ok i)
    {named : List (α × Nat)}
    (read : List.Forall₂ (fun e d => d.1 = e.1 ∧ actions.indexOf e.2 = .ok d.2) advices named) (w : α) :
    named.foldl (fun w e => w * likelihood actions.size e.1 e.2 i) w =
      advices.foldl (fun w e => w * actions.credit e.1 e.2 action) w := by
  induction read generalizing w with
  | nil => rfl
  | cons same _ ih => rw [List.foldl_cons, List.foldl_cons, likelihood_eq same.2 index, same.1, ih]

/-- The advice is weighed by index as it is by name. -/
theorem posteriorOf_eq (distinct : actions.Distinct) {named : List (α × Nat)}
    (read : List.Forall₂ (fun e d => d.1 = e.1 ∧ actions.indexOf e.2 = .ok d.2) advices named) :
    posteriorOf actions.size named =
      Scalar.normalize (actions.assignments.map (actions.support advices)) := by
  unfold posteriorOf
  congr 1
  refine List.ext_getElem? fun i => ?_
  rw [getElem?_foldl_weigh, List.getElem?_map, List.getElem?_replicate]
  split
  next lt =>
    obtain ⟨action, there, index⟩ := forall₂_right_getElem? (Layout.indexOf_assignments distinct)
      (List.getElem?_range lt)
    rw [there, Option.map_some, Option.map_some, foldl_likelihood index read, Layout.support]
  next out =>
    rw [List.getElem?_eq_none (by rwa [Layout.length_assignments, ← not_lt])]
    rfl

/-! ## Who has given advice -/

section Heard

variable {agent : TrustAgent α γ} {state : Assignment}

/-- An expert that is so reliable is remembered to have given this advice for a state. -/
def Advises (agent : TrustAgent α γ) (state : Assignment) (expert : ExpertId) (rho : α)
    (advice : Assignment) : Prop :=
  agent.rho? expert = some rho ∧ agent.remembered expert state = .ok (some advice)

/-- The state can be looked up for each expert, and all that is remembered there names an action. -/
def Legible (agent : TrustAgent α γ) (state : Assignment) : Prop :=
  ∀ expert ∈ agent.experts.names, ∃ said, agent.remembered expert state = .ok said ∧
    ∀ advice ∈ said, agent.actions.Reads advice

/-- Each expert is believed to be right with some probability. -/
def Credible (agent : TrustAgent α γ) : Prop :=
  ∀ expert rho, agent.rho? expert = some rho → 0 ≤ rho ∧ rho ≤ 1

omit [Scalar α] in
theorem remembered_eq {expert : ExpertId} {known : Acquaintance α}
    (found : agent.experts.get? expert = some known) :
    agent.remembered expert state = (known.memory.get state).mapError .layout := by
  rw [remembered, found]

theorem mem_heard_iff {e : α × Assignment} :
    e ∈ agent.heard state ↔ ∃ expert, agent.Advises state expert e.1 e.2 := by
  rw [mem_heard]
  constructor
  · rintro ⟨known, mem, rho, read⟩
    obtain ⟨expert, found⟩ := NameMap.mem_values.1 mem
    refine ⟨expert, ?_, ?_⟩
    · rw [rho?, found, Option.map_some, rho]
    · rw [remembered_eq found, mapError_eq_ok, read]
  · rintro ⟨expert, rho, read⟩
    obtain ⟨known, found, rho⟩ := Option.map_eq_some_iff.1 rho
    rw [remembered_eq found, mapError_eq_ok] at read
    exact ⟨known, NameMap.mem_values.2 ⟨expert, found⟩, rho, read⟩

theorem Credible.heard (credible : agent.Credible) :
    ∀ e ∈ agent.heard state, 0 ≤ e.1 ∧ e.1 ≤ 1 := by
  intro e he
  obtain ⟨expert, rho, -⟩ := mem_heard_iff.1 he
  exact credible expert e.1 rho

theorem legible_iff : agent.Legible state ↔ agent.advices state = .ok (agent.heard state) ∧
    ∀ e ∈ agent.heard state, agent.actions.Reads e.2 := by
  rw [advices_eq_ok, and_iff_left rfl]
  constructor
  · intro legible
    refine ⟨fun known hk => ?_, fun e he => ?_⟩
    · obtain ⟨expert, found⟩ := NameMap.mem_values.1 hk
      obtain ⟨remembered, read, -⟩ := legible expert (NameMap.mem_names.2 ⟨known, found⟩)
      rw [remembered_eq found, mapError_eq_ok] at read
      exact ⟨remembered, read⟩
    · obtain ⟨expert, rho, read⟩ := mem_heard_iff.1 he
      obtain ⟨known, found, -⟩ := Option.map_eq_some_iff.1 rho
      obtain ⟨remembered, read', reads⟩ := legible expert (NameMap.mem_names.2 ⟨known, found⟩)
      cases read.symm.trans read'
      exact reads e.2 rfl
  · rintro ⟨looked_up, reads⟩ expert named
    obtain ⟨known, found⟩ := NameMap.mem_names.1 named
    obtain ⟨remembered, there⟩ := looked_up known (NameMap.mem_values.2 ⟨expert, found⟩)
    refine ⟨remembered, by rw [remembered_eq found, there]; rfl, ?_⟩
    rintro advice rfl
    refine reads (known.belief.rho, advice) (mem_heard_iff.2 ⟨expert, ?_, ?_⟩)
    · rw [rho?, found, Option.map_some]
    · rw [remembered_eq found, there]
      rfl

omit [Scalar α] in
/-- An agent that is ready can read all that it remembers. -/
theorem Ready.legible {states : Layout} {ids : List ExpertId} {acted : Nat} {bound : ExpertId → Nat}
    (ready : agent.Ready states actions ids acted bound) (state_of : states.Reads state) :
    agent.Legible state := by
  intro expert named
  obtain ⟨known, found⟩ := NameMap.mem_names.1 named
  obtain ⟨remembered, read, joint⟩ := (ready.known expert known found).memory.exists_get state_of
  refine ⟨remembered, by rw [remembered_eq found, read]; rfl, fun advice said => ?_⟩
  rw [ready.actions_eq]
  exact Layout.reads_of_mem_assignments (joint advice said)

/-- The posterior is what the advice makes of the actions; there is one wherever the advice can be read. -/
theorem posterior_eq_ok (distinct : agent.actions.Distinct) {posterior : Option (List α)} :
    agent.posterior state = .ok posterior ↔
      agent.Legible state ∧ posterior = agent.actions.weighed (agent.heard state) := by
  rw [legible_iff, posterior_eq_ok_iff]
  have weighed : ∀ named, List.Forall₂ (fun e d => d.1 = e.1 ∧ agent.actions.indexOf e.2 = .ok d.2)
      (agent.heard state) named →
      (if (agent.heard state).isEmpty then none else posteriorOf agent.actions.size named) =
        agent.actions.weighed (agent.heard state) := by
    intro named read
    rw [Layout.weighed, posteriorOf_eq distinct read]
    simp only [List.isEmpty_iff]
  constructor
  · rintro ⟨advices, named, listed, read, rfl⟩
    obtain ⟨-, rfl⟩ := advices_eq_ok.1 listed
    refine ⟨⟨listed, fun e he => ?_⟩, weighed named read⟩
    obtain ⟨d, -, -, index⟩ := forall₂_mem read he
    exact ⟨d.2, index⟩
  · rintro ⟨⟨listed, reads⟩, rfl⟩
    obtain ⟨named, read⟩ : ∃ named, List.Forall₂ (fun e (d : α × Nat) => d.1 = e.1 ∧
        agent.actions.indexOf e.2 = .ok d.2) (agent.heard state) named :=
      exists_forall₂ fun e he => (reads e he).elim fun i hi => ⟨(e.1, i), rfl, hi⟩
    exact ⟨_, named, listed, read, (weighed named read).symm⟩

/-! ## Other experts -/

variable {agent : TrustAgent Rat γ}

/-- The agent with its experts under other names. -/
def rename (agent : TrustAgent Rat γ) (f : ExpertId → ExpertId) : TrustAgent Rat γ :=
  { agent with experts := agent.experts.rename f, history := agent.history.rename f }

/-- The agent with another belief about one expert. -/
def withBelief (agent : TrustAgent Rat γ) (expert : ExpertId) (belief : Belief Rat) : TrustAgent Rat γ :=
  { agent with experts := agent.experts.modify expert fun known => { known with belief } }

/-- The same advice is heard under other names, in another order. -/
theorem heard_rename {f : ExpertId → ExpertId}
    (apart : ∀ a ∈ agent.experts.names, ∀ b ∈ agent.experts.names, f a = f b → a = b) :
    ((agent.rename f).heard state).Perm (agent.heard state) :=
  (NameMap.values_rename apart).filterMap _

theorem Legible.rename (legible : agent.Legible state) {f : ExpertId → ExpertId}
    (apart : ∀ a ∈ agent.experts.names, ∀ b ∈ agent.experts.names, f a = f b → a = b) :
    (agent.rename f).Legible state := by
  rw [legible_iff, advices_eq_ok, and_iff_left rfl] at legible ⊢
  exact ⟨fun known hk => legible.1 known ((NameMap.values_rename apart).mem_iff.1 hk),
    fun e he => legible.2 e ((heard_rename apart).mem_iff.1 he)⟩

/-- Another belief about an expert changes the reliability of its advice, and nothing else. -/
theorem heard_withBelief {expert : ExpertId} {rho : Rat} {advice : Assignment}
    (advises : agent.Advises state expert rho advice) (belief : Belief Rat) :
    ∃ before after, agent.heard state = before ++ (rho, advice) :: after ∧
      (agent.withBelief expert belief).heard state = before ++ (belief.rho, advice) :: after := by
  obtain ⟨known, found, rho_eq⟩ := Option.map_eq_some_iff.1 advises.1
  have read := advises.2
  rw [remembered_eq found, mapError_eq_ok] at read
  have spoken : said state known = some (rho, advice) := said_eq_some.2 ⟨rho_eq, read⟩
  have spoken' : said state { known with belief } = some (belief.rho, advice) :=
    said_eq_some.2 ⟨rfl, read⟩
  obtain ⟨pre, post, values, values'⟩ :=
    NameMap.values_modify found fun known => { known with belief }
  refine ⟨pre.filterMap (said state), post.filterMap (said state), ?_, ?_⟩
  · rw [heard, values, List.filterMap_append, List.filterMap_cons_some spoken]
  · rw [heard, withBelief, values', List.filterMap_append, List.filterMap_cons_some spoken']

/-! ## Posteriors -/

theorem posterior_rename (distinct : agent.actions.Distinct) {f : ExpertId → ExpertId}
    (apart : ∀ a ∈ agent.experts.names, ∀ b ∈ agent.experts.names, f a = f b → a = b)
    {posterior : Option (List Rat)} (h : agent.posterior state = .ok posterior) :
    (agent.rename f).posterior state = .ok posterior := by
  obtain ⟨legible, rfl⟩ := (posterior_eq_ok distinct).1 h
  have distinct' : (agent.rename f).actions.Distinct := distinct
  refine (posterior_eq_ok distinct').2 ⟨legible.rename apart, ?_⟩
  exact (Layout.weighed_perm (heard_rename apart)).symm

/-- An expert that is trusted more is followed further. -/
theorem posterior_withBelief (distinct : agent.actions.Distinct) (credible : agent.Credible)
    {expert : ExpertId} {rho : Rat} {advice : Assignment} {belief : Belief Rat}
    (advises : agent.Advises state expert rho advice) (le : rho ≤ belief.rho) {shares shares' : List Rat}
    (h : agent.posterior state = .ok (some shares))
    (h' : (agent.withBelief expert belief).posterior state = .ok (some shares')) :
    ∃ i x y, agent.actions.indexOf advice = .ok i ∧ shares[i]? = some x ∧ shares'[i]? = some y ∧
      x ≤ y := by
  have distinct' : (agent.withBelief expert belief).actions.Distinct := distinct
  obtain ⟨legible, made⟩ := (posterior_eq_ok distinct).1 h
  obtain ⟨-, made'⟩ := (posterior_eq_ok distinct').1 h'
  obtain ⟨i, read⟩ := (legible_iff.1 legible).2 (rho, advice) (mem_heard_iff.2 ⟨expert, advises⟩)
  obtain ⟨before, after, heard_eq, heard_eq'⟩ := heard_withBelief advises belief
  have rest : ∀ e ∈ before ++ after, 0 ≤ e.1 ∧ e.1 ≤ 1 := by
    intro e he
    have among : e ∈ agent.heard state := by
      rw [heard_eq, List.mem_append]
      exact (List.mem_append.1 he).imp_right (List.mem_cons_of_mem _)
    exact credible.heard e among
  rw [heard_eq] at made
  rw [heard_eq'] at made'
  obtain ⟨x, y, hx, hy, gain⟩ := Layout.weighed_le_weighed rest le read distinct made.symm made'.symm
  exact ⟨i, x, y, read, hx, hy, gain⟩

theorem posterior_eq_none (distinct : agent.actions.Distinct) (credible : agent.Credible) :
    agent.posterior state = .ok none ↔ agent.Legible state ∧
      ((∀ expert rho advice, ¬ agent.Advises state expert rho advice) ∨
        ∀ action ∈ agent.actions.assignments, ∃ expert rho advice,
          agent.Advises state expert rho advice ∧ agent.actions.credit rho advice action = 0) := by
  rw [posterior_eq_ok distinct, eq_comm, Layout.weighed_eq_none credible.heard,
    List.eq_nil_iff_forall_not_mem]
  simp only [Prod.forall, Prod.exists, mem_heard_iff]
  refine and_congr_right fun _ => or_congr ?_ (forall₂_congr fun action _ => ?_)
  · exact ⟨fun silent expert rho advice said => silent rho advice ⟨expert, said⟩,
      fun silent rho advice ⟨expert, said⟩ => silent expert rho advice said⟩
  · exact ⟨fun ⟨rho, advice, ⟨expert, said⟩, zero⟩ => ⟨expert, rho, advice, said, zero⟩,
      fun ⟨expert, rho, advice, said, zero⟩ => ⟨rho, advice, ⟨expert, said⟩, zero⟩⟩

/-- What an agent makes of the advice for a state. Advice that can be read has a posterior, with a share
for each action that is not negative, and the shares add up to one. The names of the experts do not matter,
and so their order does not. If one expert is trusted more, the action that it names does not lose. There is
no posterior exactly if no expert has given advice for the state, or every action is ruled out by one. -/
theorem posterior_of_advice (distinct : agent.actions.Distinct) (credible : agent.Credible)
    (state : Assignment) :
    (agent.Legible state → ∃ posterior, agent.posterior state = .ok posterior) ∧
    (∀ shares, agent.posterior state = .ok (some shares) →
      shares.length = agent.actions.assignments.length ∧ (∀ x ∈ shares, 0 ≤ x) ∧ shares.sum = 1) ∧
    (∀ f : ExpertId → ExpertId,
      (∀ a ∈ agent.experts.names, ∀ b ∈ agent.experts.names, f a = f b → a = b) →
      ∀ posterior, agent.posterior state = .ok posterior →
        (agent.rename f).posterior state = .ok posterior) ∧
    (∀ expert rho advice belief, agent.Advises state expert rho advice → rho ≤ belief.rho →
      ∀ shares shares', agent.posterior state = .ok (some shares) →
        (agent.withBelief expert belief).posterior state = .ok (some shares') →
        ∃ i x y, agent.actions.indexOf advice = .ok i ∧ shares[i]? = some x ∧ shares'[i]? = some y ∧
          x ≤ y) ∧
    (agent.posterior state = .ok none ↔ agent.Legible state ∧
      ((∀ expert rho advice, ¬ agent.Advises state expert rho advice) ∨
        ∀ action ∈ agent.actions.assignments, ∃ expert rho advice,
          agent.Advises state expert rho advice ∧ agent.actions.credit rho advice action = 0)) := by
  refine ⟨fun legible => ⟨_, (posterior_eq_ok distinct).2 ⟨legible, rfl⟩⟩, fun shares h => ?_,
    fun f apart posterior h => posterior_rename distinct apart h, ?_, posterior_eq_none distinct credible⟩
  · obtain ⟨-, made⟩ := (posterior_eq_ok distinct).1 h
    exact Layout.weighed_shares credible.heard made.symm
  · intro expert rho advice belief advises le shares shares' h h'
    exact posterior_withBelief distinct credible advises le h h'

/-- An agent that has counted the outcomes of two experts, who name different moves. -/
def divided (left right : PriorCounts Rat) : TrustAgent Rat Still :=
  { novice with
    experts := .ofList [("left", ⟨.start left none none, .replicate signals (some (move true))⟩),
      ("right", ⟨.start right none none, .replicate signals (some (move false))⟩)] }

theorem credible_divided : (divided ⟨3, 1⟩ ⟨1, 1⟩).Credible := by
  intro expert rho h
  obtain ⟨known, found, rfl⟩ := Option.map_eq_some_iff.1 h
  have mem := NameMap.mem_of_get?_ofList found
  fin_cases mem <;> decide +kernel

/-- The expert who has more to show for its advice gets the greater share, until the other one is trusted
as much. -/
theorem posterior_of_divided_advice :
    ([1 / 4, 3 / 4] : List Rat).sum = 1 ∧
      ((divided ⟨3, 1⟩ ⟨1, 1⟩).rename fun name => if name = "left" then "up" else name).posterior
        (signal true) = .ok (some [1 / 4, 3 / 4]) ∧
      ∃ share, ((divided ⟨3, 1⟩ ⟨1, 1⟩).withBelief "right" (.start ⟨3, 1⟩ none none)).posterior
        (signal true) = .ok (some [share, 1 - share]) ∧ 1 / 4 ≤ share := by
  obtain ⟨-, shares, names, more, -⟩ := posterior_of_advice
    (show (divided ⟨3, 1⟩ ⟨1, 1⟩).actions.Distinct by decide +kernel) credible_divided (signal true)
  have before : (divided ⟨3, 1⟩ ⟨1, 1⟩).posterior (signal true) = .ok (some [1 / 4, 3 / 4]) := by
    decide +kernel
  have after : ((divided ⟨3, 1⟩ ⟨1, 1⟩).withBelief "right" (.start ⟨3, 1⟩ none none)).posterior
      (signal true) = .ok (some [1 / 2, 1 - 1 / 2]) := by
    decide +kernel
  have named : (divided ⟨3, 1⟩ ⟨1, 1⟩).actions.indexOf (move false) = .ok 0 := by decide +kernel
  refine ⟨(shares _ before).2.2, names _ (by decide +kernel) _ before, 1 / 2, after, ?_⟩
  obtain ⟨i, x, y, index, hx, hy, le⟩ := more "right" (1 / 2) (move false) (.start ⟨3, 1⟩ none none)
    ⟨by decide +kernel, by decide +kernel⟩ (by decide +kernel) _ _ before after
  cases named.symm.trans index
  cases hx
  cases hy
  exact le

end Heard

end TrustAgent

end Counsel
