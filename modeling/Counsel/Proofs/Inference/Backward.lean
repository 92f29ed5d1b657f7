/-
The order that is built backward from the last decision. It lists the pending variables and the
decisions once each (`backward_perm`), and before a decision stand the later decisions and the pending
variables that neither it nor an earlier decision observes (`backward_split`). So it is consistent for
every diagram (`consistent_forEvidence`), and with perfect recall everything that is still there when a
decision's turn comes is known to it (`mem_parents_of_recall`).
-/
import Counsel.Proofs.Diagram.Build
import Counsel.Proofs.Inference.Sweep

namespace Counsel

open Outcome

namespace EliminationOrder

variable {α : Type} {d : Diagram α}

theorem backward_perm (pending decisions : List VarId) :
    (backward d pending decisions).Perm (pending ++ decisions) := by
  induction decisions generalizing pending with
  | nil => rw [backward, List.append_nil]
  | cons D earlier ih =>
    unfold backward
    simp only [List.partition_eq_filter_filter]
    refine ((ih _).cons D |>.append_left _).trans ?_
    refine List.perm_middle.trans ?_
    refine .trans ?_ List.perm_middle.symm
    refine .cons D ?_
    rw [← List.append_assoc]
    exact (List.perm_append_comm.trans (List.filter_append_perm _ pending)).append_right earlier

/-- What stands before a decision: later decisions, and the pending variables that neither it nor an
earlier one observes. -/
theorem backward_split {pending decisions : List VarId} {D : VarId} (hD : D ∈ decisions) :
    ∃ pre post after earlier, backward d pending decisions = pre ++ D :: post ∧
      decisions = after ++ D :: earlier ∧ ∀ id, id ∈ pre ↔
        id ∈ after ∨ (id ∈ pending ∧ id ∉ (D :: earlier).flatMap d.parentsOf) := by
  induction decisions generalizing pending with
  | nil => cases hD
  | cons first rest ih =>
    unfold backward
    simp only [List.partition_eq_filter_filter]
    by_cases e : D = first
    · subst e
      refine ⟨_, _, [], rest, rfl, rfl, fun id => ?_⟩
      rw [List.mem_filter]
      simp
    · obtain ⟨pre, post, after, earlier, split, rfl, before⟩ :=
        @ih (pending.filter ((first :: rest).flatMap d.parentsOf).contains)
          ((List.mem_cons.1 hD).resolve_left e)
      refine ⟨pending.filter (not ∘ ((first :: (after ++ D :: earlier)).flatMap d.parentsOf).contains) ++
        first :: pre, post, first :: after, earlier, ?_, rfl, fun id => ?_⟩
      · rw [split, List.append_assoc, List.cons_append]
      · -- what the first decision leaves pending is observed by it or by an earlier one
        have sub : id ∈ (D :: earlier).flatMap d.parentsOf →
            id ∈ (first :: (after ++ D :: earlier)).flatMap d.parentsOf := by
          intro hm
          rw [List.flatMap_cons, List.flatMap_append]
          exact List.mem_append_right _ (List.mem_append_right _ hm)
        rw [List.mem_append, List.mem_cons, List.mem_cons, before, List.mem_filter, List.mem_filter]
        simp only [Function.comp_apply, Bool.not_eq_true', List.contains_eq_mem, decide_eq_true_eq,
          decide_eq_false_iff_not]
        constructor
        · rintro (⟨hp, unobserved⟩ | rfl | ha | ⟨⟨hp, -⟩, unobserved⟩)
          · exact .inr ⟨hp, fun k => unobserved (sub k)⟩
          · exact .inl (.inl rfl)
          · exact .inl (.inr ha)
          · exact .inr ⟨hp, unobserved⟩
        · rintro ((rfl | ha) | ⟨hp, unobserved⟩)
          · exact .inr (.inl rfl)
          · exact .inr (.inr (.inl ha))
          · by_cases later : id ∈ (first :: (after ++ D :: earlier)).flatMap d.parentsOf
            · exact .inr (.inr (.inr ⟨⟨hp, later⟩, unobserved⟩))
            · exact .inl ⟨hp, later⟩

end EliminationOrder

namespace Diagram

variable {α : Type} [Scalar α] {d : Diagram α} {evidence : Slots}

/-! ## The order in which decisions are made -/

/-- One decision is made before another. -/
def Earlier (d : Diagram α) (a b : VarId) : Prop := [a, b].Sublist d.decisionOrder

/-- What was known for a decision, and the decision itself, is known for every later decision. -/
def PerfectRecall (d : Diagram α) : Prop :=
  d.decisionOrder.Pairwise fun a b => a ∈ d.parentsOf b ∧ ∀ p ∈ d.parentsOf a, p ∈ d.parentsOf b

/-- A decision that is still open, up to a given one, observes a variable. -/
def Seen (d : Diagram α) (evidence : Slots) (D id : VarId) : Prop :=
  ∃ D' ∈ d.decisionOrder, evidence.isAssigned D' = false ∧ (D' = D ∨ d.Earlier D' D) ∧
    id ∈ d.parentsOf D'

theorem not_sublist_of_sublist {β : Type} {l : List β} (nodup : l.Nodup) {a b : β}
    (h : [a, b].Sublist l) : ¬ [b, a].Sublist l := by
  intro k
  obtain ⟨r₁, r₂, rfl, ha₁, hb₂⟩ := List.cons_sublist_iff.1 h
  obtain ⟨s₁, s₂, e, hb₁, ha₂⟩ := List.cons_sublist_iff.1 k
  rw [List.singleton_sublist] at hb₂ ha₂
  have apart := (List.nodup_append.1 nodup).2.2
  -- the two splits of the list overlap in an entry that stands in both parts
  rcases List.append_eq_append_iff.1 e with ⟨c, rfl, rfl⟩ | ⟨c, rfl, rfl⟩
  · exact apart a ha₁ a (List.mem_append_right _ ha₂) rfl
  · exact apart b (List.mem_append_left _ hb₁) b hb₂ rfl

omit [Scalar α] in
theorem Earlier.mem {a b : VarId} (h : d.Earlier a b) : a ∈ d.decisionOrder ∧ b ∈ d.decisionOrder :=
  ⟨h.subset (by simp), h.subset (by simp)⟩

omit [Scalar α] in
theorem PerfectRecall.of_earlier (perfect : d.PerfectRecall) {a b : VarId} (h : d.Earlier a b) :
    a ∈ d.parentsOf b ∧ ∀ p ∈ d.parentsOf a, p ∈ d.parentsOf b :=
  List.pairwise_iff_forall_sublist.1 perfect h

theorem Earlier.asymm (h : d.WellFormed) {a b : VarId} (k : d.Earlier a b) : ¬ d.Earlier b a :=
  not_sublist_of_sublist (h.nodup_orderOf .decision) k

theorem Earlier.trans (h : d.WellFormed) {a b c : VarId} (k : d.Earlier a b) (k' : d.Earlier b c) :
    d.Earlier a c := by
  have nodup := h.nodup_orderOf .decision
  obtain ⟨r₁, r₂, e, ha, hb⟩ := List.cons_sublist_iff.1 k
  obtain ⟨s₁, s₂, e', hb', hc⟩ := List.cons_sublist_iff.1 k'
  rw [List.singleton_sublist] at hb hc
  show [a, c].Sublist d.decisionOrder
  rw [e]
  rw [decisionOrder] at e e'
  rw [e] at nodup e'
  rcases List.append_eq_append_iff.1 e' with ⟨l, -, rfl⟩ | ⟨l, rfl, -⟩
  · refine (List.singleton_sublist.2 ha).append (List.singleton_sublist.2 ?_)
    exact List.mem_append_right _ hc
  · -- the one in the middle would be listed twice
    exact absurd rfl ((List.nodup_append.1 nodup).2.2 b (List.mem_append_left _ hb') b hb)

omit [Scalar α] in
theorem earlier_or {a b : VarId} (ha : a ∈ d.decisionOrder)
    (hb : b ∈ d.decisionOrder) (ne : a ≠ b) : d.Earlier a b ∨ d.Earlier b a := by
  obtain ⟨l, r, e⟩ := List.append_of_mem ha
  unfold Earlier
  rw [e] at hb ⊢
  rcases List.mem_append.1 hb with hb | hb
  · right
    exact (List.singleton_sublist.2 hb).append (List.singleton_sublist.2 List.mem_cons_self)
  · left
    have hb : b ∈ r := (List.mem_cons.1 hb).resolve_left ne.symm
    exact ((List.singleton_sublist.2 hb).cons_cons a).trans (List.sublist_append_right _ _)

/-- A decision observes no decision that is made later. -/
theorem Earlier.not_mem_parents (h : d.WellFormed) {a b : VarId} (k : d.Earlier a b) :
    b ∉ d.parentsOf a := by
  have pairwise := h.parentsFirst.pairwise h.nodup_topological
  exact List.pairwise_iff_forall_sublist.1 pairwise (List.Sublist.trans k List.filter_sublist)

theorem mem_decisionOrder (h : d.WellFormed) {v : Variable} (hv : v ∈ d.vars) :
    v.id ∈ d.decisionOrder ↔ v.kind = .decision := by
  rw [decisionOrder, h.mem_orderOf]
  constructor
  · rintro ⟨u, hu, e, decision⟩
    rwa [← h.inj u hu v hv e]
  · exact fun decision => ⟨v, hv, rfl, decision⟩

end Diagram

namespace EliminationOrder

open Diagram

variable {α : Type} [Scalar α] {d : Diagram α} {evidence : Slots}

/-! ## The order for some evidence -/

/-- The requisite chance variables without evidence, children before parents. -/
def pendingFor (d : Diagram α) (evidence : Slots) : List VarId :=
  d.chanceOrder.reverse.filter fun id =>
    (d.requisiteChance evidence).getD id.index false && !evidence.isAssigned id

/-- The decisions without evidence, in turn. -/
def openDecisions (d : Diagram α) (evidence : Slots) : List VarId :=
  d.decisionOrder.filter fun id => !evidence.isAssigned id

omit [Scalar α] in
theorem ids_forEvidence : (forEvidence d evidence).ids =
    backward d (pendingFor d evidence) (openDecisions d evidence).reverse := rfl

omit [Scalar α] in
theorem mem_openDecisions {id : VarId} :
    id ∈ openDecisions d evidence ↔ id ∈ d.decisionOrder ∧ evidence.isAssigned id = false := by
  rw [openDecisions, List.mem_filter, Bool.not_eq_true']

theorem mem_pendingFor (h : d.WellFormed) {u : Variable} (hu : u ∈ d.vars) :
    u.id ∈ pendingFor d evidence ↔
      u.kind = .chance ∧ takesPart (d.requisiteChance evidence) evidence u = true := by
  rw [pendingFor, List.mem_filter, List.mem_reverse, chanceOrder, h.mem_orderOf, Bool.and_eq_true,
    Bool.not_eq_true', takesPart_iff]
  constructor
  · rintro ⟨⟨v, hv, e, chance⟩, marked, free⟩
    exact ⟨h.inj v hv u hu e ▸ chance, free, .inr marked⟩
  · rintro ⟨chance, free, decision | marked⟩
    · rw [chance] at decision
      cases decision
    · exact ⟨⟨u, hu, rfl, chance⟩, marked, free⟩

theorem mem_forEvidence (h : d.WellFormed) {id : VarId} :
    id ∈ (forEvidence d evidence).ids ↔ d.Active evidence id := by
  rw [ids_forEvidence, (backward_perm _ _).mem_iff, List.mem_append, List.mem_reverse]
  constructor
  · rintro (hp | hd)
    · obtain ⟨v, hv, rfl, -⟩ := h.mem_orderOf.1 (List.mem_reverse.1 (List.mem_of_mem_filter hp))
      exact ⟨v, hv, rfl, ((mem_pendingFor h hv).1 hp).2⟩
    · obtain ⟨hd, free⟩ := mem_openDecisions.1 hd
      obtain ⟨v, hv, rfl, decision⟩ := h.mem_orderOf.1 hd
      exact ⟨v, hv, rfl, takesPart_iff.2 ⟨free, .inl decision⟩⟩
  · rintro ⟨v, hv, rfl, part⟩
    cases kind : v.kind with
    | chance => exact .inl ((mem_pendingFor h hv).2 ⟨kind, part⟩)
    | decision =>
      exact .inr (mem_openDecisions.2 ⟨(mem_decisionOrder h hv).2 kind, (takesPart_iff.1 part).1⟩)

theorem nodup_forEvidence (h : d.WellFormed) : (forEvidence d evidence).ids.Nodup := by
  rw [ids_forEvidence, (backward_perm _ _).nodup_iff, List.nodup_append]
  refine ⟨(List.nodup_reverse.2 (h.nodup_orderOf .chance)).filter _,
    List.nodup_reverse.2 ((h.nodup_orderOf .decision).filter _), fun a ha b hb e => ?_⟩
  subst e
  obtain ⟨u, hu, rfl, chance⟩ := h.mem_orderOf.1 (List.mem_reverse.1 (List.mem_of_mem_filter ha))
  have decision := (mem_decisionOrder h hu).1 (mem_openDecisions.1 (List.mem_reverse.1 hb)).1
  rw [chance] at decision
  cases decision

omit [Scalar α] in
/-- The open decisions before and after one of them are made earlier and later. -/
theorem earlier_of_split {D : VarId} {after earlier : List VarId}
    (e : (openDecisions d evidence).reverse = after ++ D :: earlier) :
    (∀ id ∈ after, d.Earlier D id) ∧ ∀ id ∈ earlier, d.Earlier id D := by
  have turn : openDecisions d evidence = earlier.reverse ++ D :: after.reverse := by
    rw [← List.reverse_reverse (openDecisions d evidence), e]
    simp
  have sub : (earlier.reverse ++ D :: after.reverse).Sublist d.decisionOrder :=
    turn ▸ List.filter_sublist
  constructor
  · intro id hid
    exact (((List.singleton_sublist.2 (List.mem_reverse.2 hid)).cons_cons D).trans
      (List.sublist_append_right _ _)).trans sub
  · intro id hid
    exact ((List.singleton_sublist.2 (List.mem_reverse.2 hid)).append
      (List.singleton_sublist.2 List.mem_cons_self)).trans sub

/-- Among the open decisions the later ones are those that are made later. -/
theorem mem_later (h : d.WellFormed) {D : VarId} {after earlier : List VarId}
    (e : (openDecisions d evidence).reverse = after ++ D :: earlier) :
    (∀ id, id ∈ after ↔ d.Earlier D id ∧ evidence.isAssigned id = false) ∧
      ∀ id, id ∈ D :: earlier ↔ id ∈ d.decisionOrder ∧ evidence.isAssigned id = false ∧
        (id = D ∨ d.Earlier id D) := by
  obtain ⟨later, sooner⟩ := earlier_of_split e
  have listed : ∀ id, id ∈ d.decisionOrder ∧ evidence.isAssigned id = false ↔
      id ∈ after ∨ id ∈ D :: earlier := by
    intro id
    rw [← mem_openDecisions, ← List.mem_reverse, e, List.mem_append]
  have irreflexive : ¬ d.Earlier D D := fun k => k.asymm h k
  constructor
  · intro id
    constructor
    · exact fun hid => ⟨later id hid, ((listed id).2 (.inl hid)).2⟩
    · rintro ⟨k, free⟩
      refine ((listed id).1 ⟨k.mem.2, free⟩).resolve_right fun hid => ?_
      rcases List.mem_cons.1 hid with rfl | hid
      · exact irreflexive k
      · exact k.asymm h (sooner id hid)
  · intro id
    constructor
    · intro hid
      obtain ⟨hm, free⟩ := (listed id).2 (.inr hid)
      exact ⟨hm, free, (List.mem_cons.1 hid).imp_right (sooner id)⟩
    · rintro ⟨hm, free, k⟩
      refine ((listed id).1 ⟨hm, free⟩).resolve_left fun hid => ?_
      rcases k with rfl | k
      · exact irreflexive (later id hid)
      · exact k.asymm h (later id hid)

/-- Before an open decision stand the decisions that are made later, and the chance variables that no
open decision up to it observes. -/
theorem mem_before (h : d.WellFormed) {D : Variable} (hD : D ∈ d.vars) (decision : D.kind = .decision)
    (free : evidence.isAssigned D.id = false) {pre post : List VarId}
    (split : (forEvidence d evidence).ids = pre ++ D.id :: post) {u : Variable} (hu : u ∈ d.vars)
    (part : takesPart (d.requisiteChance evidence) evidence u = true) :
    u.id ∈ pre ↔ d.Earlier D.id u.id ∨ (u.kind = .chance ∧ ¬ d.Seen evidence D.id u.id) := by
  have hopen : D.id ∈ (openDecisions d evidence).reverse :=
    List.mem_reverse.2 (mem_openDecisions.2 ⟨(mem_decisionOrder h hD).2 decision, free⟩)
  obtain ⟨pre', post', after, earlier, split', e, before⟩ := @backward_split _ d (pendingFor d evidence)
    _ _ hopen
  have same : pre = pre' := by
    have nodup := @nodup_forEvidence _ _ d evidence h
    rw [split] at nodup
    exact (split_unique nodup (split.symm.trans (ids_forEvidence.trans split'))).1
  obtain ⟨later, sooner⟩ := mem_later h e
  have seen : u.id ∈ (D.id :: earlier).flatMap d.parentsOf ↔ d.Seen evidence D.id u.id := by
    rw [List.mem_flatMap]
    simp only [sooner, Seen, and_assoc]
  rw [same, before, later, mem_pendingFor h hu, seen]
  constructor
  · rintro (⟨k, -⟩ | ⟨⟨chance, -⟩, unseen⟩)
    · exact .inl k
    · exact .inr ⟨chance, unseen⟩
  · rintro (k | ⟨chance, unseen⟩)
    · exact .inl ⟨k, (takesPart_iff.1 part).1⟩
    · exact .inr ⟨⟨chance, part⟩, unseen⟩

/-- The order for some evidence is consistent. -/
theorem consistent_forEvidence (h : d.WellFormed) :
    d.Consistent (forEvidence d evidence).ids (d.requisiteChance evidence) evidence where
  known id hid := by
    obtain ⟨v, hv, e, -⟩ := (mem_forEvidence h).1 hid
    exact ⟨v, hv, e⟩
  nodup := nodup_forEvidence h
  complete v hv part := (mem_forEvidence h).2 ⟨v, hv, rfl, part⟩
  informed D hD decision pre post split u hu part observed hin := by
    have hmem : D.id ∈ (forEvidence d evidence).ids := by rw [split]; simp
    obtain ⟨D', hD', e, active⟩ := (mem_forEvidence h).1 hmem
    obtain rfl := h.inj D' hD' D hD e
    have free := (takesPart_iff.1 active).1
    rw [← h.parentsOf_eq hD] at observed
    rcases (mem_before h hD decision free split hu part).1 hin with later | ⟨-, unseen⟩
    · exact later.not_mem_parents h observed
    · exact unseen ⟨D'.id, (mem_decisionOrder h hD).2 decision, free, .inl rfl, observed⟩

/-- With perfect recall a decision observes everything that is still there when its turn comes. -/
theorem mem_parents_of_recall (h : d.WellFormed) (perfect : d.PerfectRecall) {D : Variable}
    (hD : D ∈ d.vars) (decision : D.kind = .decision) (free : evidence.isAssigned D.id = false)
    {pre post : List VarId} (split : (forEvidence d evidence).ids = pre ++ D.id :: post) {u : Variable}
    (hu : u ∈ d.vars) (part : takesPart (d.requisiteChance evidence) evidence u = true)
    (left : u.id ∉ pre) : u.id = D.id ∨ u.id ∈ D.parents := by
  rw [mem_before h hD decision free split hu part, not_or, not_and, not_not] at left
  obtain ⟨unsorted, seen⟩ := left
  rw [← h.parentsOf_eq hD]
  cases kind : u.kind with
  | decision =>
    by_cases same : u.id = D.id
    · exact .inl same
    · have k := earlier_or ((mem_decisionOrder h hu).2 kind) ((mem_decisionOrder h hD).2 decision) same
      exact .inr (perfect.of_earlier (k.resolve_right unsorted)).1
  | chance =>
    obtain ⟨D', hD', -, rfl | k, observed⟩ := seen kind
    · exact .inr observed
    · exact .inr ((perfect.of_earlier k).2 _ observed)

theorem solve_eq {observations : Assignment} (valid : d.slotsOf observations = .ok evidence) (n : Nat) :
    answer (d.solve observations) n =
      answer (d.optimize (forEvidence d evidence) observations) n := by
  unfold solve
  rw [valid, answer_bind_of_ok (answer_ofModel_ok evidence n)]

theorem accepted_of_recall (h : d.WellFormed) (perfect : d.PerfectRecall) (fits : d.Fits)
    {observations : Assignment} (valid : d.slotsOf observations = .ok evidence) (n : Nat) :
    Accepted (answer (d.solve observations) n).1 := by
  rw [solve_eq valid n]
  refine (not_refused_of_inside h valid (consistent_forEvidence h) ?_ n).2 fits
  intro gs k nodes stage _ pre D post split decision state l run f hf _ id hid
  obtain ⟨hD, active, -, nodes', here⟩ := stage_at_turn h (consistent_forEvidence h) stage split run
  obtain ⟨⟨u, hu, rfl, part⟩, gone⟩ := here.live_of_mem f hf id hid
  obtain ⟨front, back, place, rfl⟩ := participants_split h split
  refine mem_parents_of_recall h perfect hD decision (takesPart_iff.1 active).1 place hu part fun hin => ?_
  exact gone (List.mem_map.2 ⟨u, (mem_participants h).2 ⟨hu, part, hin⟩, rfl⟩)

/-- The order made for some evidence lists exactly the open decisions and the requisite chance variables
without evidence, once each; and with perfect recall a diagram is solved along it, unless the evidence
has no probability. -/
theorem solve_of_perfectRecall {decl : Declaration α} (built : decl.build = .ok d)
    (perfect : d.PerfectRecall) (fits : d.Fits) {observations : Assignment}
    (valid : d.slotsOf observations = .ok evidence) (n : Nat) :
    (forEvidence d evidence).ids.Nodup ∧
    (∀ id, id ∈ (forEvidence d evidence).ids ↔ ∃ v ∈ d.vars, v.id = id ∧
      evidence.isAssigned id = false ∧
      (v.kind = .decision ∨ v.kind = .chance ∧ d.Reaches (d.concerns evidence) id)) ∧
    Accepted (answer (d.solve observations) n).1 := by
  have h := Declaration.wellFormed_of_build built
  have admits := h.admits_of_slotsOf valid
  refine ⟨nodup_forEvidence h, fun id => ?_, accepted_of_recall h perfect fits valid n⟩
  rw [mem_forEvidence h]
  constructor
  · rintro ⟨v, hv, rfl, part⟩
    obtain ⟨free, kind⟩ := takesPart_iff.1 part
    exact ⟨v, hv, rfl, free, kind.imp_right (marked_requisite h admits.known hv).1⟩
  · rintro ⟨v, hv, rfl, free, kind⟩
    exact ⟨v, hv, rfl, takesPart_iff.2 ⟨free, kind.imp_right (marked_requisite h admits.known hv).2⟩⟩

/-- Whether to drill for oil, after a report that may be asked for. -/
def drilling : Declaration Rat where
  vars := [⟨"Test", .decision, Value.boolean, []⟩, ⟨"Oil", .chance, Value.boolean, []⟩,
    ⟨"Report", .chance, Value.boolean, []⟩, ⟨"Drill", .decision, Value.boolean, ["Test", "Report"]⟩]
  cpts := [⟨"Oil", [], [3/4, 1/4]⟩, ⟨"Report", ["Oil"], [4/5, 1/5, 1/10, 9/10]⟩]
  utilities := [⟨["Test", "Oil", "Drill"], [0, -7, 0, 20, -1, -8, -1, 19]⟩]

/-- The report is known and whether it was asked for is remembered. -/
theorem solve_drilling : ∃ d, drilling.build = .ok d ∧ Accepted (answer (d.solve NameMap.empty) 0).1 := by
  have built := @eq_ok_get _ _ drilling.build (by decide +kernel)
  refine ⟨_, built, ?_⟩
  have valid := @eq_ok_get _ _ ((drilling.build.toOption.get (by decide +kernel)).slotsOf NameMap.empty)
    (by decide +kernel)
  exact (solve_of_perfectRecall built (by unfold PerfectRecall; decide +kernel)
    (by unfold Fits; decide +kernel) valid 0).2.2

end EliminationOrder

end Counsel
