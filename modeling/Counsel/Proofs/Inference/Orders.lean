/-
Elimination orders that pass the check before an elimination, and the variables that take part in one.
An order passes exactly when it lists known variables once each, all that take part among them, and no
variable that takes part stands before a decision that observes it (`checkOrder_eq_ok`). Only the
variables that take part are eliminated (`foldlM_eliminateNext`).
-/
import Counsel.Proofs.Inference.Stage

namespace Counsel.Diagram

open Outcome

variable {α : Type} {d : Diagram α} {requisite : Array Bool} {evidence : Slots}

/-- What the check of an order asks for. -/
structure Consistent (d : Diagram α) (order : List VarId) (requisite : Array Bool)
    (evidence : Slots) : Prop where
  known : ∀ id ∈ order, ∃ v ∈ d.vars, v.id = id
  nodup : order.Nodup
  complete : ∀ v ∈ d.vars, takesPart requisite evidence v = true → v.id ∈ order
  informed : ∀ D ∈ d.vars, D.kind = .decision → ∀ pre post, order = pre ++ D.id :: post →
    ∀ u ∈ d.vars, takesPart requisite evidence u = true → u.id ∈ D.parents → u.id ∉ pre

/-- The variables of an order that take part, in turn. -/
def participants (d : Diagram α) (requisite : Array Bool) (evidence : Slots) (order : List VarId) :
    List Variable :=
  order.filterMap fun id => (d.byId? id).filter (takesPart requisite evidence)

/-- Eliminates a variable that takes part: a decision is maximised out, a chance variable summed out. -/
def sweepOne (state : Elimination α) (v : Variable) : Infer (Elimination α) :=
  if v.isDecision then maximise state v
  else return { state with factors := ← eliminate state.factors v }

theorem takesPart_iff {v : Variable} : takesPart requisite evidence v = true ↔
    evidence.isAssigned v.id = false ∧ (v.kind = .decision ∨ Marked requisite v.id) := by
  unfold takesPart Marked
  rw [Bool.and_eq_true, Bool.not_eq_true', Bool.or_eq_true, isDecision_iff]

/-- Variables that do not take part are passed over. -/
theorem foldlM_eliminateNext (order : List VarId) (state : Elimination α) :
    order.foldlM (d.eliminateNext requisite evidence) state =
      (d.participants requisite evidence order).foldlM sweepOne state := by
  induction order generalizing state with
  | nil => rfl
  | cons id rest ih =>
    rw [List.foldlM_cons, participants, List.filterMap_cons]
    unfold eliminateNext
    cases hv : d.byId? id with
    | none =>
      rw [Option.filter_none, pure_bind]
      exact ih state
    | some v =>
      simp only [Option.filter_some]
      by_cases part : takesPart requisite evidence v = true
      · rw [if_pos part]
        simp only [part, Bool.not_true, Bool.false_eq_true, if_false]
        rw [List.foldlM_cons]
        exact congrArg _ (funext fun s => ih s)
      · rw [if_neg part]
        simp only [Bool.not_eq_true] at part
        simp only [part, Bool.not_false, if_true]
        rw [pure_bind]
        exact ih state

/-! ## The check -/

theorem checkEntries_eq_ok {seen order : List VarId} : d.checkEntries seen order = .ok () ↔
    (∀ id ∈ order, (d.byId? id).isSome = true) ∧ order.Nodup ∧ ∀ id ∈ order, id ∉ seen := by
  induction order generalizing seen with
  | nil => simp [checkEntries]
  | cons id rest ih =>
    unfold checkEntries
    rw [List.forall_mem_cons, List.forall_mem_cons, List.nodup_cons]
    cases hv : d.byId? id with
    | none => simp
    | some v =>
      simp only [Option.isSome_some, true_and]
      split
      next repeated =>
        constructor
        · intro e
          cases e
        · intro k
          exact absurd repeated k.2.2.1
      next fresh =>
        rw [ih]
        simp only [List.mem_cons, not_or]
        constructor
        · rintro ⟨known, nodup, unseen⟩
          exact ⟨known, ⟨fun hm => (unseen id hm).1 rfl, nodup⟩, fresh, fun k hk => (unseen k hk).2⟩
        · rintro ⟨known, ⟨hm, nodup⟩, -, unseen⟩
          exact ⟨known, nodup, fun k hk => ⟨fun e => hm (e ▸ hk), unseen k hk⟩⟩

/-- The place of an entry that a list does not have. -/
theorem findIdx?_of_notMem {order : List VarId} {id : VarId} (h : id ∉ order) :
    order.findIdx? (· == id) = none := by
  rw [List.findIdx?_eq_none_iff]
  exact fun k hk => by simpa using fun e : k = id => h (e ▸ hk)

/-- The place of an entry in a list without repetitions. -/
theorem findIdx?_middle {pre post : List VarId} {id : VarId} (h : id ∉ pre) :
    (pre ++ id :: post).findIdx? (· == id) = some pre.length := by
  rw [List.findIdx?_append, findIdx?_of_notMem h, List.findIdx?_cons]
  simp

theorem findIdx?_lt_iff {pre post : List VarId} {id : VarId} :
    ((pre ++ post).findIdx? (· == id)).any (fun i => decide (i < pre.length)) = true ↔ id ∈ pre := by
  rw [List.findIdx?_append]
  by_cases hm : id ∈ pre
  · obtain ⟨i, hi⟩ : ∃ i, pre.findIdx? (· == id) = some i := by
      cases k : pre.findIdx? (· == id) with
      | some i => exact ⟨i, rfl⟩
      | none =>
        rw [List.findIdx?_eq_none_iff] at k
        exact absurd (beq_self_eq_true id) (by simpa using k id hm)
    have lt := (List.findIdx?_eq_some_iff_getElem.1 hi).1
    rw [hi]
    simp [hm, lt]
  · rw [findIdx?_of_notMem hm]
    cases post.findIdx? (· == id) <;> simp [hm]

variable [Scalar α]

/-- What is eliminated before a decision that observes it. -/
theorem mem_eliminatedBefore (h : d.WellFormed) {order : List VarId} (nodup : order.Nodup)
    {D u : Variable} : u ∈ d.eliminatedBefore order requisite evidence D ↔
      (u ∈ d.vars ∧ u.id ∈ D.parents) ∧ takesPart requisite evidence u = true ∧
        ∃ pre post, order = pre ++ D.id :: post ∧ u.id ∈ pre := by
  unfold eliminatedBefore
  by_cases hm : D.id ∈ order
  · obtain ⟨pre, post, rfl⟩ := List.append_of_mem hm
    rw [findIdx?_middle (notMem_of_nodup nodup).1]
    simp only [List.mem_filter, Bool.and_eq_true, findIdx?_lt_iff, h.mem_pick]
    refine and_congr_right fun _ => and_congr_right fun _ => ?_
    constructor
    · exact fun before => ⟨pre, post, rfl, before⟩
    · rintro ⟨pre', post', e, before⟩
      obtain ⟨rfl, -⟩ := split_unique nodup e
      exact before
  · rw [findIdx?_of_notMem hm]
    constructor
    · exact fun absent => absurd absent List.not_mem_nil
    · rintro ⟨-, -, pre, post, rfl, -⟩
      exact absurd (by simp) hm

theorem eliminatedBefore_eq_nil (h : d.WellFormed) {order : List VarId} (nodup : order.Nodup)
    {D : Variable} : d.eliminatedBefore order requisite evidence D = [] ↔
      ∀ pre post, order = pre ++ D.id :: post → ∀ u ∈ d.vars,
        takesPart requisite evidence u = true → u.id ∈ D.parents → u.id ∉ pre := by
  simp only [List.eq_nil_iff_forall_not_mem, mem_eliminatedBefore h nodup]
  constructor
  · exact fun none pre post split u hu part observed before =>
      none u ⟨⟨hu, observed⟩, part, pre, post, split, before⟩
  · rintro none u ⟨⟨hu, observed⟩, part, pre, post, split, before⟩
    exact none pre post split u hu part observed before

theorem checkOrder_eq_ok (h : d.WellFormed) {order : List VarId} :
    d.checkOrder order requisite evidence = .ok () ↔ d.Consistent order requisite evidence := by
  -- each of the three searches finds nothing exactly if its part of consistency holds
  have known : (∀ id ∈ order, (d.byId? id).isSome = true) ↔ ∀ id ∈ order, ∃ v ∈ d.vars, v.id = id := by
    apply forall₂_congr
    intro id _
    rw [Option.isSome_iff_exists]
    exact exists_congr fun v => h.byId?_eq_some
  have missing : (d.vars.find? fun v => takesPart requisite evidence v && !order.contains v.id) = none ↔
      ∀ v ∈ d.vars, takesPart requisite evidence v = true → v.id ∈ order := by
    rw [List.find?_eq_none]
    simp
  have early : ((d.vars.filter (·.isDecision)).findSome? fun D =>
      (d.eliminatedBefore order requisite evidence D).head?.map (D, ·)) = none ↔
      ∀ D ∈ d.vars, D.kind = .decision → d.eliminatedBefore order requisite evidence D = [] := by
    rw [List.findSome?_eq_none_iff]
    simp only [List.mem_filter, isDecision_iff, Option.map_eq_none_iff, List.head?_eq_none_iff, and_imp]
  have entries := @checkEntries_eq_ok _ d [] order
  unfold checkOrder
  rw [bind_eq_ok]
  constructor
  · rintro ⟨⟨⟩, checked, rest⟩
    obtain ⟨hk, nodup, -⟩ := entries.1 checked
    split at rest
    next => cases rest
    next none_missing =>
      split at rest
      next => cases rest
      next none_early =>
        exact ⟨known.1 hk, nodup, missing.1 none_missing, fun D hD decision =>
          (eliminatedBefore_eq_nil h nodup).1 (early.1 none_early D hD decision)⟩
  · intro consistent
    refine ⟨(), entries.2 ⟨known.2 consistent.known, consistent.nodup, by simp⟩, ?_⟩
    rw [missing.2 consistent.complete]
    simp only
    rw [early.2 fun D hD decision =>
      (eliminatedBefore_eq_nil h consistent.nodup).2 (consistent.informed D hD decision)]
    rfl

/-! ## Participants -/

theorem nodup_participants (h : d.WellFormed) {order : List VarId} (nodup : order.Nodup) :
    (d.participants requisite evidence order).Nodup := by
  apply nodup.filterMap
  intro a b v ha hb
  rw [Option.mem_def, Option.filter_eq_some_iff] at ha hb
  rw [← (h.byId?_eq_some.1 ha.1).2, (h.byId?_eq_some.1 hb.1).2]

theorem mem_participants (h : d.WellFormed) {order : List VarId} {v : Variable} :
    v ∈ d.participants requisite evidence order ↔
      v ∈ d.vars ∧ takesPart requisite evidence v = true ∧ v.id ∈ order := by
  unfold participants
  rw [List.mem_filterMap]
  constructor
  · rintro ⟨id, hid, hv⟩
    rw [Option.filter_eq_some_iff] at hv
    obtain ⟨hm, rfl⟩ := h.byId?_eq_some.1 hv.1
    exact ⟨hm, hv.2, hid⟩
  · rintro ⟨hv, part, hid⟩
    exact ⟨v.id, hid, Option.filter_eq_some_iff.2 ⟨h.byId?_eq_some.2 ⟨hv, rfl⟩, part⟩⟩

theorem mem_map_id (h : d.WellFormed) {vars : List Variable} (sub : ∀ v ∈ vars, v ∈ d.vars)
    {v : Variable} (hv : v ∈ d.vars) : v.id ∈ vars.map (·.id) ↔ v ∈ vars := by
  rw [List.mem_map]
  constructor
  · rintro ⟨u, hu, e⟩
    exact h.inj u (sub u hu) v hv e ▸ hu
  · exact fun hm => ⟨v, hm, rfl⟩

/-- Where a participant stands among the participants, it stands in the order. -/
theorem participants_split (h : d.WellFormed) {order : List VarId} {pre post : List Variable}
    {v : Variable} (split : d.participants requisite evidence order = pre ++ v :: post) :
    ∃ front back, order = front ++ v.id :: back ∧ d.participants requisite evidence front = pre := by
  obtain ⟨front, back, rfl, hfront, hback⟩ := List.filterMap_eq_append_iff.1 split
  obtain ⟨skipped, id, rest, rfl, hskipped, hv, -⟩ := List.filterMap_eq_cons_iff.1 hback
  rw [Option.filter_eq_some_iff] at hv
  obtain ⟨-, rfl⟩ := h.byId?_eq_some.1 hv.1
  have none_skipped : d.participants requisite evidence skipped = [] :=
    List.filterMap_eq_nil_iff.2 hskipped
  refine ⟨front ++ skipped, rest, by simp, ?_⟩
  rw [participants, List.filterMap_append, hfront]
  exact (congrArg (pre ++ ·) none_skipped).trans (List.append_nil pre)

/-- Before a participating decision stands no participant that it observes. -/
theorem Consistent.participants_informed (h : d.WellFormed) {order : List VarId}
    (consistent : d.Consistent order requisite evidence) {pre post : List Variable} {D : Variable}
    (split : d.participants requisite evidence order = pre ++ D :: post) (decision : D.kind = .decision) :
    ∀ u ∈ pre, u.id ∉ D.parents := by
  have hD : D ∈ d.participants requisite evidence order := by
    rw [split]
    exact List.mem_append_right _ List.mem_cons_self
  obtain ⟨front, back, rfl, rfl⟩ := participants_split h split
  intro u hu observed
  obtain ⟨hv, part, hin⟩ := (mem_participants h).1 hu
  exact consistent.informed D ((mem_participants h).1 hD).1 decision front back rfl u hv part observed hin

end Counsel.Diagram
