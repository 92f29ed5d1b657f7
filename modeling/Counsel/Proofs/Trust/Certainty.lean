/-
Certain experts. The advice of an expert that is never wrong rules out every action that it does not name,
so it leaves one action (`Layout.weighed_certain`) or, against another such expert, none
(`Layout.weighed_contradiction`), and no rounding changes that. An agent that explores then takes that one
action whatever is drawn (`TrustAgent.followPosterior_certain`), or acts at random
(`TrustAgent.followPosterior_none`).
-/
import Counsel.Proofs.Shares
import Counsel.Proofs.Trust.Weighing

namespace Counsel

open Outcome Scalar.LawfulRounding

variable {α γ : Type} [Scalar α]

/-! ## Advice that is certain -/

namespace Layout

variable {actions : Layout} {advices : List (α × Assignment)} {advice action : Assignment}

/-- One action is left that certain advice names. -/
theorem eq_of_agree_advice (mem : action ∈ actions.assignments) {other : Assignment}
    (mem' : other ∈ actions.assignments) (agree : actions.Agree advice action)
    (agree' : actions.Agree advice other) : other = action :=
  (covers_of_mem_assignments mem').eq_of_agree (covers_of_mem_assignments mem) fun name named =>
    (agree' name named).symm.trans (agree name named)

/-- Some piece of certain advice does not name the action. -/
def RulesOut (actions : Layout) (advices : List (α × Assignment)) (action : Assignment) : Prop :=
  ∃ advice, (1, advice) ∈ advices ∧ ¬ actions.Agree advice action

variable [Scalar.LawfulRounding α]

/-- Credible advice gives each action a share of credit, and nothing if it is certain of another one. -/
theorem exists_credit (two : 2 ≤ actions.size) {rho : α} (nonneg : 0 ≤ rho) (le_one : rho ≤ 1)
    (advice action : Assignment) : ∃ c, Scalar.Share (actions.credit rho advice action) c ∧
      (rho = 1 → ¬ actions.Agree advice action → c = 0) := by
  obtain ⟨a, share⟩ := Scalar.exists_share nonneg le_one
  unfold credit
  split
  next agree => exact ⟨a, share, fun _ differ => absurd agree differ⟩
  next =>
    obtain ⟨b, rest, none⟩ := share.rest
    have few : actions.size - 1 < MixedRadix.indexLimit := (Nat.sub_le _ _).trans_lt actions.fits
    obtain ⟨c, part, none'⟩ := rest.part (by omega) few
    refine ⟨c, part, ?_⟩
    rintro rfl -
    exact none' (none (le_antisymm share.le_one ((le_iff one share.stands).1 le_one)))

section Credible

variable (two : 2 ≤ actions.size) (credible : ∀ e ∈ advices, 0 ≤ e.1 ∧ e.1 ≤ 1)

include two credible

theorem exists_foldl_credit (action : Assignment) {w : α} {a : ℚ} (share : Scalar.Share w a) :
    ∃ c, Scalar.Share (advices.foldl (fun w e => w * actions.credit e.1 e.2 action) w) c ∧
      (a = 0 ∨ actions.RulesOut advices action → c = 0) := by
  induction advices generalizing w a with
  | nil => exact ⟨a, share, fun h => h.elim id fun ⟨_, said, _⟩ => nomatch said⟩
  | cons e rest ih =>
    obtain ⟨⟨nonneg, le_one⟩, credible⟩ := List.forall_mem_cons.1 credible
    obtain ⟨b, credit, none⟩ := exists_credit two nonneg le_one e.2 action
    obtain ⟨d, product, none'⟩ := share.mul credit
    obtain ⟨c, likely, none''⟩ := ih credible product
    refine ⟨c, likely, ?_⟩
    rintro (rfl | ⟨advice, said, differ⟩)
    · exact none'' (.inl (none' (.inl rfl)))
    · rcases List.mem_cons.1 said with rfl | said
      · exact none'' (.inl (none' (.inr (none rfl differ))))
      · exact none'' (.inr ⟨advice, said, differ⟩)

/-- Credible advice makes an action likely to some degree, and unlikely if it rules it out. -/
theorem exists_support (action : Assignment) : ∃ c, Scalar.Share (actions.support advices action) c ∧
    (actions.RulesOut advices action → c = 0) := by
  obtain ⟨c, likely, none⟩ := exists_foldl_credit two credible action Scalar.share_one
  exact ⟨c, likely, fun out => none (.inr out)⟩

theorem stands_support_of_rulesOut (out : actions.RulesOut advices action) :
    Stands (actions.support advices action) 0 := by
  obtain ⟨c, likely, none⟩ := exists_support two credible action
  exact none out ▸ likely.stands

/-- If certain advice leaves anything, it leaves the action that it names. -/
theorem weighed_certain (distinct : actions.Distinct) (said : (1, advice) ∈ advices)
    (mem : action ∈ actions.assignments) (possible : 0 < actions.support advices action) :
    actions.Agree advice action ∧ ∃ share : Assignment → α,
      actions.weighed advices = some (actions.assignments.map share) ∧ Stands (share action) 1 ∧
      ∀ other ∈ actions.assignments, other ≠ action → Stands (share other) 0 := by
  obtain ⟨c, likely, none⟩ := exists_support two credible action
  have pos : 0 < c := (Scalar.lt_iff zero likely.stands).1 possible
  have agree : actions.Agree advice action := by
    by_contra differ
    exact pos.ne' (none ⟨advice, said, differ⟩)
  have nothing : ∀ other ∈ actions.assignments, other ≠ action →
      Stands (actions.support advices other) 0 := fun other mem' ne =>
    stands_support_of_rulesOut two credible
      ⟨advice, said, fun agree' => ne (eq_of_agree_advice mem mem' agree agree')⟩
  rw [weighed, if_neg (List.ne_nil_of_mem said)]
  exact ⟨agree, Scalar.exists_normalize_single (nodup_assignments_iff.2 distinct) mem likely pos nothing⟩

/-- Advice from two sides that is certain, and not the same, leaves nothing. -/
theorem weighed_contradiction {advice' : Assignment} (said : (1, advice) ∈ advices)
    (said' : (1, advice') ∈ advices) (differ : ¬ actions.Agree advice advice') :
    actions.weighed advices = none := by
  have out : ∀ action, actions.RulesOut advices action := by
    intro action
    by_cases agree : actions.Agree advice action
    · exact ⟨advice', said', fun agree' =>
        differ fun name named => (agree name named).trans (agree' name named).symm⟩
    · exact ⟨advice, said, agree⟩
  rw [weighed, if_neg (List.ne_nil_of_mem said)]
  exact Scalar.normalize_of_nothing
    (List.forall_mem_map.2 fun action _ => stands_support_of_rulesOut two credible (out action))

end Credible

end Layout

/-! ## Thresholds -/

/-- No threshold is out of the reach of certainty. -/
theorem TrustConfig.thresholdFor_le_one [Scalar.LawfulRounding α] {config : TrustConfig α}
    (threshold : ∀ t ∈ config.threshold, t ≤ 1) (n : Nat) : config.thresholdFor n ≤ 1 := by
  have half_le_one : (0.5 : α) ≤ 1 := (le_iff half one).2 (by norm_num)
  unfold thresholdFor
  rcases given : config.threshold with _ | t
  · show standardThreshold n ≤ (1 : α)
    unfold standardThreshold Scalar.atMost
    split
    · exact half_le_one
    · split
      next below => exact Scalar.LawfulOrder.le_trans (Scalar.LawfulOrder.le_of_lt below) half_le_one
      next => exact half_le_one
  · exact threshold t given

/-! ## Acting -/

namespace TrustAgent

variable [RandomSource γ] {agent : TrustAgent α γ} {state : Assignment}

/-- The agent after the draw by which it explores or not. -/
def drawn (agent : TrustAgent α γ) : TrustAgent α γ :=
  { agent.note with source := (RandomSource.fraction agent.source : α × γ).2 }

/-- An agent with a choice explores by weighing the advice. -/
theorem explore_of_bayesian (two : 2 ≤ agent.actions.size) (bayesian : agent.config.mode = .bayesian) :
    answer (explore state) agent = answer (followPosterior state) agent := by
  unfold explore
  rw [answer_get_bind, if_neg (by omega), bayesian]

theorem act_of_draw (two : 2 ≤ agent.actions.size) (bayesian : agent.config.mode = .bayesian)
    (passes : ¬ agent.epsilon ≤ (RandomSource.fraction agent.source).1) :
    answer (act state true) agent = answer (followPosterior state) agent.drawn := by
  have acted : answer (act state true) agent =
      answer (if agent.epsilon ≤ (RandomSource.fraction agent.source).1 then exploit state
        else explore state) agent.drawn := rfl
  have two' : 2 ≤ agent.drawn.actions.size := two
  rw [acted, if_neg passes, explore_of_bayesian two' bayesian]

omit [Scalar α] in
theorem exists_randomAction (agent : TrustAgent α γ) :
    ∃ action, agent.actions.assignments[(RandomSource.below agent.actions.size agent.source).1]? =
      some action ∧ (answer randomAction agent).1 = .ok action := by
  have lt := RandomSource.below_lt agent.actions.size agent.source agent.actions.size_pos
  obtain ⟨action, -, named⟩ := Layout.exists_assignmentAt lt
  refine ⟨action, Layout.getElem?_assignments.2 named, ?_⟩
  unfold randomAction
  rw [answer_get_bind, answer_bind_of_ok (answer_set _ _), named]
  rfl

/-- Without a posterior the agent acts at random. -/
theorem followPosterior_none (nothing : agent.posterior state = .ok none) :
    answer (followPosterior state) agent = answer randomAction agent := by
  unfold followPosterior
  rw [answer_get_bind, nothing, Step.ofLayout_ok, pure_bind]

/-- An agent that is certain does not draw in vain. -/
theorem followPosterior_certain [Scalar.LawfulRounding α] [LawfulChances α]
    (distinct : agent.actions.Distinct) (threshold : ∀ t ∈ agent.config.threshold, t ≤ 1)
    {action : Assignment} (mem : action ∈ agent.actions.assignments) {share : Assignment → α}
    (posterior : agent.posterior state = .ok (some (agent.actions.assignments.map share)))
    (certain : Stands (share action) 1)
    (nothing : ∀ other ∈ agent.actions.assignments, other ≠ action → Stands (share other) 0) :
    (answer (followPosterior state) agent).1 = .ok action := by
  obtain ⟨i, there⟩ := List.mem_iff_getElem?.1 mem
  have first : Scalar.argmaxFirst (agent.actions.assignments.map share) = some i :=
    Scalar.argmaxFirst_of_indicator (Layout.nodup_assignments_iff.2 distinct) there certain nothing
  have confidence : (agent.actions.assignments.map share).getD i 0 = share action := by
    rw [List.getD_eq_getElem?_getD, List.getElem?_map, there, Option.map_some, Option.getD_some]
  have one_le : 1 ≤ share action := (le_iff one certain).2 le_rfl
  have reached : ¬ share action < agent.config.thresholdFor agent.actions.size := fun below =>
    Scalar.LawfulOrder.not_le_of_lt below
      (Scalar.LawfulOrder.le_trans (TrustConfig.thresholdFor_le_one threshold _) one_le)
  unfold followPosterior
  rw [answer_get_bind, posterior, Step.ofLayout_ok, pure_bind]
  simp only [first, Option.getD_some, confidence]
  rw [if_neg reached, Layout.getElem?_assignments.1 there, Step.ofLayout_ok, pure_bind]
  have drew : answer (fraction : Step (TrustAgent α γ) α) agent =
      (.ok (RandomSource.fraction agent.source).1,
        { agent with source := (RandomSource.fraction agent.source : α × γ).2 }) := rfl
  rw [answer_bind_of_ok drew, if_pos (LawfulChances.fraction_lt agent.source one_le)]
  rfl

/-- Certain experts decide. If one that is never wrong has given advice for the state, and anything is left
by all the advice, the advised action has the whole posterior and an agent that explores takes it, whatever
its source draws, its threshold is and others have said. If two such experts contradict each other, there is
no posterior and an agent that explores takes an action at random. -/
theorem act_of_certainty [Scalar.LawfulRounding α] [LawfulChances α] (distinct : agent.actions.Distinct)
    (two : 2 ≤ agent.actions.size) (bayesian : agent.config.mode = .bayesian)
    (threshold : ∀ t ∈ agent.config.threshold, t ≤ 1) (credible : agent.Credible)
    (legible : agent.Legible state) :
    (∀ expert advice, agent.Advises state expert 1 advice →
      (∃ action ∈ agent.actions.assignments, 0 < agent.actions.support (agent.heard state) action) →
      (∃ shares, agent.posterior state = .ok (some shares) ∧ List.Forall₂ (fun action share =>
        (share == if agent.actions.Agree advice action then 1 else 0) = true)
          agent.actions.assignments shares) ∧
      ∃ action ∈ agent.actions.assignments, agent.actions.Agree advice action ∧
        (agent.actions.Covers advice → action = advice) ∧
        (¬ agent.epsilon ≤ (RandomSource.fraction agent.source).1 →
          (answer (act state true) agent).1 = .ok action)) ∧
    (∀ expert rival advice advice', agent.Advises state expert 1 advice →
      agent.Advises state rival 1 advice' → ¬ agent.actions.Agree advice advice' →
      agent.posterior state = .ok none ∧
      ∃ action, agent.actions.assignments[(RandomSource.below agent.actions.size
          (RandomSource.fraction agent.source : α × γ).2).1]? = some action ∧
        (¬ agent.epsilon ≤ (RandomSource.fraction agent.source).1 →
          (answer (act state true) agent).1 = .ok action)) := by
  have believed : ∀ e ∈ agent.heard state, 0 ≤ e.1 ∧ e.1 ≤ 1 := credible.heard
  constructor
  · rintro expert advice advises ⟨action, mem, possible⟩
    obtain ⟨agree, share, left, certain, nothing⟩ := Layout.weighed_certain two believed distinct
      (mem_heard_iff.2 ⟨expert, advises⟩) mem possible
    have posterior := (posterior_eq_ok distinct).2 ⟨legible, left.symm⟩
    refine ⟨⟨_, posterior, ?_⟩, action, mem, agree, fun covers => ?_, fun passes => ?_⟩
    · rw [List.forall₂_map_right_iff, List.forall₂_same]
      intro other mem'
      split
      next agree' =>
        -- an action that agrees has the advised value everywhere, so there is only one
        rw [Layout.eq_of_agree_advice mem mem' agree agree', beq_iff certain one]
      next differ =>
        have ne : other ≠ action := fun same => differ (same ▸ agree)
        rw [beq_iff (nothing other mem' ne) zero]
    · exact (Layout.covers_of_mem_assignments mem).eq_of_agree covers fun name named =>
        (agree name named).symm
    · rw [act_of_draw two bayesian passes]
      have distinct' : agent.drawn.actions.Distinct := distinct
      exact followPosterior_certain distinct' threshold mem posterior certain nothing
  · intro expert rival advice advice' advises advises' differ
    have nothing : agent.posterior state = .ok none := (posterior_eq_ok distinct).2 ⟨legible,
      (Layout.weighed_contradiction two believed (mem_heard_iff.2 ⟨expert, advises⟩)
        (mem_heard_iff.2 ⟨rival, advises'⟩) differ).symm⟩
    obtain ⟨action, there, made⟩ := exists_randomAction agent.drawn
    have nothing' : agent.drawn.posterior state = .ok none := nothing
    refine ⟨nothing, action, there, fun passes => ?_⟩
    rw [act_of_draw two bayesian passes, followPosterior_none nothing']
    exact made

theorem legible_divided (left right : PriorCounts Rat) : (divided left right).Legible (signal true) := by
  have recalled : ∀ said : Bool, (StateTable.replicate signals (some (move said))).get (signal true) =
      .ok (some (move said)) := by
    decide +kernel
  have index : ∀ said : Bool, novice.actions.indexOf (move said) = .ok (if said then 1 else 0) := by
    decide +kernel
  intro expert named
  obtain ⟨known, found⟩ := NameMap.mem_names.1 named
  rcases List.mem_pair.1 (NameMap.mem_of_get?_ofList found) with same | same <;> cases same
  · refine ⟨some (move true), by rw [remembered_eq found, recalled]; rfl, ?_⟩
    rintro _ ⟨⟩
    exact ⟨1, index true⟩
  · refine ⟨some (move false), by rw [remembered_eq found, recalled]; rfl, ?_⟩
    rintro _ ⟨⟩
    exact ⟨0, index false⟩

/-- The move of a certain expert is made, and not that of one who is right as often as not. Two certain
experts leave the choice to the draw, which is of the first move here. -/
theorem act_of_divided :
    (divided ⟨1, 0⟩ ⟨1, 1⟩).posterior (signal true) = .ok (some [0, 1]) ∧
      (answer (act (signal true) true) (divided ⟨1, 0⟩ ⟨1, 1⟩)).1 = .ok (move true) ∧
      (divided ⟨1, 0⟩ ⟨1, 0⟩).posterior (signal true) = .ok none ∧
      (answer (act (signal true) true) (divided ⟨1, 0⟩ ⟨1, 0⟩)).1 = .ok (move false) := by
  have threshold : ∀ t ∈ novice.config.threshold, t ≤ 1 := by
    rw [arises_novice.fresh.2]
    exact fun t ht => nomatch ht
  have credible : ∀ right : Bool, (divided ⟨1, 0⟩ ⟨1, if right then 1 else 0⟩).Credible := by
    intro right expert rho h
    obtain ⟨known, found, rfl⟩ := Option.map_eq_some_iff.1 h
    rcases List.mem_pair.1 (NameMap.mem_of_get?_ofList found) with same | same <;> cases same
    · decide +kernel
    · cases right <;> decide +kernel
  have decides := fun right : Bool =>
    @act_of_certainty _ _ _ _ (divided ⟨1, 0⟩ ⟨1, if right then 1 else 0⟩) (signal true) _ _
      (show novice.actions.Distinct by decide +kernel) (show 2 ≤ novice.actions.size by decide +kernel)
      (show novice.config.mode = .bayesian by decide +kernel) threshold (credible right)
      (legible_divided _ _)
  obtain ⟨⟨shares, posterior, indicator⟩, action, mem, agree, -, acts⟩ := (decides true).1 "left" (move true)
    ⟨by decide +kernel, by decide +kernel⟩ ⟨move true, by decide +kernel, by decide +kernel⟩
  obtain ⟨nothing, drawn, there, acts'⟩ := (decides false).2 "left" "right" (move true)
    (move false) ⟨by decide +kernel, by decide +kernel⟩ ⟨by decide +kernel, by decide +kernel⟩
    (by decide +kernel)
  have indicated : novice.actions.assignments.map
      (fun action => if novice.actions.Agree (move true) action then 1 else 0) = shares := by
    rw [← List.forall₂_eq_eq_eq, List.forall₂_map_left_iff]
    exact indicator.imp fun _ _ h => (beq_iff_eq.1 h).symm
  have listed : novice.actions.assignments.map
      (fun action => if novice.actions.Agree (move true) action then 1 else 0) = [(0 : Rat), 1] := by
    decide +kernel
  have advised : action = move true :=
    Layout.eq_of_agree_advice (by decide +kernel) mem (by decide +kernel) agree
  have first : novice.actions.assignments[0]? = some (move false) := by decide +kernel
  cases there.symm.trans first
  refine ⟨?_, advised ▸ acts (by decide +kernel), nothing, acts' (by decide +kernel)⟩
  rw [← listed, indicated]
  exact posterior

end TrustAgent

end Counsel
