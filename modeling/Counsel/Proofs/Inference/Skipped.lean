/-
Entries of an order that take no part. An elimination passes over what is observed and over barren chance
variables, so it goes the same way along the order without them. The check before it looks at positions,
and demands of each decision in the order that what it observes comes later: of an observed decision too,
which is never maximised out. So to leave the entries out changes nothing unless an observed decision
stands behind a variable that it observes and that takes part (`Late`); an order with such a decision is
refused (`optimize_trimmed`).
-/
import Counsel.Proofs.Inference.Carrier

namespace Counsel

open Outcome

variable {α : Type}

/-- Whether an entry of an order takes part in an elimination. -/
def Diagram.keeps (d : Diagram α) (evidence : Slots) (id : VarId) : Bool :=
  (d.byId? id).any (Diagram.takesPart (d.requisiteChance evidence) evidence)

/-- An order without observed variables and without barren chance variables. -/
def EliminationOrder.trimmed (order : EliminationOrder) (d : Diagram α) (evidence : Slots) :
    EliminationOrder :=
  ⟨order.ids.filter (d.keeps evidence)⟩

namespace Diagram

variable [Scalar α] {d : Diagram α} {evidence : Slots} {order : EliminationOrder}

/-- An observed decision stands in an order behind a variable that it observes and that takes part. -/
structure Late (d : Diagram α) (evidence : Slots) (order : EliminationOrder) (D u : Variable) : Prop where
  mem : D ∈ d.vars
  decision : D.kind = .decision
  settled : evidence.isAssigned D.id = true
  parent : u ∈ d.vars ∧ u.id ∈ D.parents
  part : takesPart (d.requisiteChance evidence) evidence u = true
  behind : ∃ front back, order.ids = front ++ D.id :: back ∧ u.id ∈ front

theorem keeps_iff (h : d.WellFormed) {v : Variable} (hv : v ∈ d.vars) :
    d.keeps evidence v.id = takesPart (d.requisiteChance evidence) evidence v := by
  rw [keeps, h.byId?_eq_some.2 ⟨hv, rfl⟩, Option.any_some]

/-! ## The elimination -/

omit [Scalar α] in
/-- The participants are those that are kept. -/
theorem participants_trimmed :
    d.participants (d.requisiteChance evidence) evidence (order.trimmed d evidence).ids =
      d.participants (d.requisiteChance evidence) evidence order.ids := by
  rw [participants, participants, EliminationOrder.trimmed, List.filterMap_filter]
  refine List.filterMap_congr fun id _ => ?_
  rw [keeps]
  cases d.byId? id with
  | none => rfl
  | some v =>
    rw [Option.any_some, Option.filter_some]
    split <;> rfl

/-! ## The check -/

section Check

variable (h : d.WellFormed) (known : ∀ id ∈ order.ids, ∃ v ∈ d.vars, v.id = id) (nodup : order.ids.Nodup)
include h known nodup

omit known nodup in
theorem mem_trimmed {v : Variable} (hv : v ∈ d.vars)
    (part : takesPart (d.requisiteChance evidence) evidence v = true) :
    v.id ∈ (order.trimmed d evidence).ids ↔ v.id ∈ order.ids := by
  rw [EliminationOrder.trimmed, List.mem_filter, keeps_iff h hv, part, and_iff_left rfl]

theorem checkEntries_trimmed (evidence : Slots) : d.checkEntries [] (order.trimmed d evidence).ids = .ok () ∧
    d.checkEntries [] order.ids = .ok () := by
  have found : ∀ id ∈ order.ids, (d.byId? id).isSome = true := by
    intro id hid
    obtain ⟨v, hv, rfl⟩ := known id hid
    rw [h.byId?_eq_some.2 ⟨hv, rfl⟩]
    rfl
  exact ⟨checkEntries_eq_ok.2 ⟨fun id hid => found id (List.mem_of_mem_filter hid), nodup.filter _, by simp⟩,
    checkEntries_eq_ok.2 ⟨found, nodup, by simp⟩⟩

omit known in
/-- What is eliminated before an open decision is kept, so it stands before the decision in both. -/
theorem eliminatedBefore_trimmed {D : Variable} (hD : D ∈ d.vars)
    (kept : takesPart (d.requisiteChance evidence) evidence D = true) :
    d.eliminatedBefore (order.trimmed d evidence).ids (d.requisiteChance evidence) evidence D =
      d.eliminatedBefore order.ids (d.requisiteChance evidence) evidence D := by
  unfold eliminatedBefore
  by_cases listed : D.id ∈ order.ids
  · obtain ⟨pre, post, split⟩ := List.append_of_mem listed
    have split' : (order.trimmed d evidence).ids =
        pre.filter (d.keeps evidence) ++ D.id :: post.filter (d.keeps evidence) := by
      rw [EliminationOrder.trimmed, split, List.filter_append,
        List.filter_cons_of_pos ((keeps_iff h hD).trans kept)]
    have first := (notMem_of_nodup (split ▸ nodup)).1
    rw [split', split, findIdx?_middle first, findIdx?_middle fun hm => first (List.mem_of_mem_filter hm)]
    refine List.filter_congr fun u hu => ?_
    cases part : takesPart (d.requisiteChance evidence) evidence u with
    | false => rfl
    | true =>
      rw [Bool.true_and, Bool.true_and, Bool.eq_iff_iff, findIdx?_lt_iff, findIdx?_lt_iff, List.mem_filter,
        keeps_iff h (h.mem_pick.1 hu).1, part, and_iff_left rfl]
  · have unlisted : D.id ∉ (order.trimmed d evidence).ids := fun hm => listed (List.mem_of_mem_filter hm)
    rw [findIdx?_of_notMem listed, findIdx?_of_notMem unlisted]

omit known in
/-- Before a decision that is not kept nothing is eliminated along the trimmed order. -/
theorem eliminatedBefore_trimmed_of_settled {D : Variable} (hD : D ∈ d.vars)
    (settled : evidence.isAssigned D.id = true) :
    d.eliminatedBefore (order.trimmed d evidence).ids (d.requisiteChance evidence) evidence D = [] := by
  have nodup' : (order.trimmed d evidence).ids.Nodup := nodup.filter _
  refine List.eq_nil_iff_forall_not_mem.2 fun u before => ?_
  obtain ⟨-, -, pre, post, split, -⟩ := (mem_eliminatedBefore h nodup').1 before
  have listed : D.id ∈ (order.trimmed d evidence).ids := by rw [split]; simp
  have kept := (keeps_iff h hD).symm.trans (List.mem_filter.1 listed).2
  rw [(takesPart_iff.1 kept).1] at settled
  cases settled

omit known in
/-- Behind an observed decision that is not late nothing is eliminated that it observes. -/
theorem late_of_mem_eliminatedBefore {D u : Variable} (hD : D ∈ d.vars) (decision : D.kind = .decision)
    (settled : evidence.isAssigned D.id = true)
    (before : u ∈ d.eliminatedBefore order.ids (d.requisiteChance evidence) evidence D) :
    d.Late evidence order D u := by
  obtain ⟨parent, part, behind⟩ := (mem_eliminatedBefore h nodup).1 before
  exact ⟨hD, decision, settled, parent, part, behind⟩

/-- Without late decisions the check comes to the same along both orders. -/
theorem checkOrder_trimmed (timely : ∀ D u, ¬ d.Late evidence order D u) :
    d.checkOrder (order.trimmed d evidence).ids (d.requisiteChance evidence) evidence =
      d.checkOrder order.ids (d.requisiteChance evidence) evidence := by
  obtain ⟨entries', entries⟩ := checkEntries_trimmed h known nodup evidence
  have missing : (d.vars.find? fun v => takesPart (d.requisiteChance evidence) evidence v &&
      !(order.trimmed d evidence).ids.contains v.id) =
      d.vars.find? fun v => takesPart (d.requisiteChance evidence) evidence v && !order.ids.contains v.id := by
    refine List.find?_congr fun v hv => ?_
    cases part : takesPart (d.requisiteChance evidence) evidence v with
    | false => rfl
    | true => simp only [List.contains_eq_mem, mem_trimmed h hv part]
  have early : ∀ D ∈ d.vars.filter (·.isDecision),
      d.eliminatedBefore (order.trimmed d evidence).ids (d.requisiteChance evidence) evidence D =
        d.eliminatedBefore order.ids (d.requisiteChance evidence) evidence D := by
    intro D mem
    obtain ⟨hD, decision⟩ := List.mem_filter.1 mem
    have decision := isDecision_iff.1 decision
    cases settled : evidence.isAssigned D.id with
    | false => exact eliminatedBefore_trimmed h nodup hD (takesPart_iff.2 ⟨settled, .inl decision⟩)
    | true =>
      rw [eliminatedBefore_trimmed_of_settled h nodup hD settled, eq_comm, List.eq_nil_iff_forall_not_mem]
      exact fun u before => timely D u (late_of_mem_eliminatedBefore h nodup hD decision settled before)
  unfold checkOrder
  rw [entries', entries, missing, ← List.head?_filterMap, ← List.head?_filterMap,
    List.filterMap_congr fun D hD => by rw [early D hD]]

omit known nodup in
/-- An order with a late decision does not pass its check. -/
theorem exists_refusal_of_late {D u : Variable} (late : d.Late evidence order D u) :
    ∃ place fault, d.checkOrder order.ids (d.requisiteChance evidence) evidence =
      .error (.illegalOrder place fault) := by
  rcases checked : d.checkOrder order.ids (d.requisiteChance evidence) evidence with e | ⟨⟨⟩⟩
  · obtain ⟨place, fault, rfl, -⟩ := checkOrder_error checked
    exact ⟨place, fault, rfl⟩
  · obtain ⟨front, back, split, before⟩ := late.behind
    exact absurd before (((checkOrder_eq_ok h).1 checked).informed D late.mem late.decision front back split
      u late.parent.1 late.part late.parent.2)

/-- If only the trimmed order passes its check, the other one is refused for a late decision. -/
theorem late_of_refused {e : InferenceError}
    (passes : d.checkOrder (order.trimmed d evidence).ids (d.requisiteChance evidence) evidence = .ok ())
    (refused : d.checkOrder order.ids (d.requisiteChance evidence) evidence = .error e) :
    ∃ D u, d.Late evidence order D u ∧ e = .illegalOrder D.name (.observedFirst u.name) := by
  have consistent := (checkOrder_eq_ok h).1 passes
  have missing : (d.vars.find? fun v =>
      takesPart (d.requisiteChance evidence) evidence v && !order.ids.contains v.id) = none := by
    rw [List.find?_eq_none]
    intro v hv
    simp only [Bool.and_eq_true, Bool.not_eq_true', List.contains_eq_mem, decide_eq_false_iff_not, not_and,
      not_not]
    exact fun part => (mem_trimmed h hv part).1 (consistent.complete v hv part)
  unfold checkOrder at refused
  rw [(checkEntries_trimmed h known nodup evidence).2, ok_bind, missing] at refused
  simp only at refused
  split at refused
  next D u early =>
    cases refused
    obtain ⟨D', mem, first⟩ := List.exists_of_findSome?_eq_some early
    obtain ⟨u', head, pair⟩ := Option.map_eq_some_iff.1 first
    cases pair
    obtain ⟨hD, decision⟩ := List.mem_filter.1 mem
    have decision := isDecision_iff.1 decision
    have before := List.mem_of_head? head
    cases settled : evidence.isAssigned D.id with
    | false =>
      -- an open decision that is early is early in the trimmed order too
      have kept : takesPart (d.requisiteChance evidence) evidence D = true :=
        takesPart_iff.2 ⟨settled, .inl decision⟩
      rw [← eliminatedBefore_trimmed h nodup hD kept, (eliminatedBefore_eq_nil h consistent.nodup).2
        (consistent.informed D hD decision)] at before
      cases before
    | true => exact ⟨D, u, late_of_mem_eliminatedBefore h nodup hD decision settled before, rfl⟩
  next => cases refused

end Check

/-! ## Solutions -/

/-- Without late decisions an order and the order without the entries that take no part come to the same:
the same value by the same rules, or the same error. With a late decision the order is refused; if the
other order is not, the refusal is for an observed decision that stands behind a variable that it observes.
Observations that stand for nothing are refused before any order is looked at. -/
theorem optimize_trimmed {decl : Declaration α} (built : decl.build = .ok d) (order : EliminationOrder)
    (known : ∀ id ∈ order.ids, ∃ v ∈ d.vars, v.id = id) (nodup : order.ids.Nodup)
    (observations : Assignment) (n : Nat) :
    (∀ e, d.slotsOf observations = .error e → ∀ along : EliminationOrder,
      answer (d.optimize along observations) n = (.error (.model e), n)) ∧
    ∀ evidence, d.slotsOf observations = .ok evidence →
      ((∀ D u, ¬ d.Late evidence order D u) → answer (d.optimize order observations) n =
        answer (d.optimize (order.trimmed d evidence) observations) n) ∧
      ((∃ D u, d.Late evidence order D u) → Refused (answer (d.optimize order observations) n).1 ∧
        (¬ Refused (answer (d.optimize (order.trimmed d evidence) observations) n).1 →
          ∃ D u, d.Late evidence order D u ∧ answer (d.optimize order observations) n =
            (.error (.illegalOrder D.name (.observedFirst u.name)), n))) := by
  have h := Declaration.wellFormed_of_build built
  refine ⟨fun e invalid along => ?_, fun evidence valid => ⟨fun timely => ?_, fun ⟨D, u, late⟩ => ?_⟩⟩
  · unfold optimize
    rw [invalid, answer_bind_of_error (answer_ofModel_error e n)]
  · unfold optimize
    rw [valid, answer_bind_of_ok (answer_ofModel_ok evidence n),
      answer_bind_of_ok (answer_ofModel_ok evidence n)]
    simp only [foldlM_eliminateNext, participants_trimmed, checkOrder_trimmed h known nodup timely]
  · obtain ⟨place, fault, refused⟩ := exists_refusal_of_late h late
    have stopped := optimize_of_unchecked valid refused (n := n)
    refine ⟨⟨place, fault, by rw [stopped]⟩, fun accepted => ?_⟩
    have consistent := (consistent_or_refused h _ valid n).resolve_right accepted
    obtain ⟨D, u, late, same⟩ := late_of_refused h known nodup ((checkOrder_eq_ok h).2 consistent) refused
    exact ⟨D, u, late, by rw [stopped, same]⟩

/-- The umbrella is taken. -/
def umbrellaTaken : Slots :=
  (umbrellaDiagram.slotsOf (NameMap.ofList [("Umbrella", .bool true)])).toOption.get (by decide +kernel)

/-- With the umbrella taken for certain, to sum the forecast out before it is refused, since one who would
decide on the umbrella observes the forecast. Without the entry for the umbrella the order is accepted. -/
theorem trimmed_umbrella : ∃ D u,
    umbrellaDiagram.Late umbrellaTaken ⟨[⟨1⟩, ⟨0⟩, ⟨2⟩]⟩ D u ∧
    D.name = "Umbrella" ∧ u.name = "Forecast" ∧
    answer (umbrellaDiagram.optimize ⟨[⟨1⟩, ⟨0⟩, ⟨2⟩]⟩ (NameMap.ofList [("Umbrella", .bool true)])) 2 =
      (.error (.illegalOrder D.name (.observedFirst u.name)), 2) ∧
    (answer (umbrellaDiagram.optimize ⟨[⟨1⟩, ⟨0⟩]⟩
      (NameMap.ofList [("Umbrella", .bool true)])) 2).1.toOption.map (·.expectedUtility) = some 35 := by
  have worth : (answer (umbrellaDiagram.optimize ⟨[⟨1⟩, ⟨0⟩]⟩
      (NameMap.ofList [("Umbrella", .bool true)])) 2).1.toOption.map (·.expectedUtility) = some 35 := by
    decide +kernel
  obtain ⟨x, m, accepted, -⟩ := answer_of_map worth
  have late : umbrellaDiagram.Late umbrellaTaken ⟨[⟨1⟩, ⟨0⟩, ⟨2⟩]⟩
      ⟨⟨2⟩, "Umbrella", .decision, Value.boolean, [⟨1⟩]⟩
      ⟨⟨1⟩, "Forecast", .chance, [.text "sunny", .text "rainy"], [⟨0⟩]⟩ :=
    ⟨by decide +kernel, rfl, by decide +kernel, by decide +kernel, by decide +kernel, [⟨1⟩, ⟨0⟩], [], rfl,
      by decide⟩
  obtain ⟨-, along⟩ := optimize_trimmed build_umbrella ⟨[⟨1⟩, ⟨0⟩, ⟨2⟩]⟩ (by decide +kernel)
    (by decide) (NameMap.ofList [("Umbrella", .bool true)]) 2
  obtain ⟨-, stopped⟩ := (along umbrellaTaken (eq_ok_get _)).2 ⟨_, _, late⟩
  have kept : (EliminationOrder.mk [⟨1⟩, ⟨0⟩, ⟨2⟩]).trimmed umbrellaDiagram umbrellaTaken =
      ⟨[⟨1⟩, ⟨0⟩]⟩ := by decide +kernel
  rw [kept, accepted] at stopped
  obtain ⟨D, u, late, refused⟩ := stopped (Accepted.not_refused (.inl ⟨x, rfl⟩))
  have shown : (match (answer (umbrellaDiagram.optimize ⟨[⟨1⟩, ⟨0⟩, ⟨2⟩]⟩
      (NameMap.ofList [("Umbrella", .bool true)])) 2).1 with
      | .error (.illegalOrder place (.observedFirst name)) => some (place, name)
      | _ => none) = some ("Umbrella", "Forecast") := by decide +kernel
  rw [refused] at shown
  obtain ⟨named, observed⟩ := Prod.mk.inj (Option.some.inj shown)
  exact ⟨D, u, late, named, observed, refused, worth⟩

end Diagram

end Counsel
