/-
Decisions that the utility does not depend on. The order for some evidence holds back what any open
decision observes until that decision is made, even if nothing depends on the decision. When some order
is accepted, the order for the evidence is accepted exactly if no decision outside the utility holds
back a variable in this way that is linked to the utility when a later decision is made which does not
observe it (`solve_legal_of_accepted`).
-/
import Counsel.Proofs.Inference.Backward
import Counsel.Proofs.Inference.Links

namespace Counsel.Diagram

open Outcome EliminationOrder

variable {α : Type} [Scalar α] {d : Diagram α} {evidence : Slots}

/-- A decision that is open, and in the utility or not. -/
structure Open (d : Diagram α) (evidence : Slots) (D : Variable) : Prop where
  mem : D ∈ d.vars
  decision : D.kind = .decision
  free : evidence.isAssigned D.id = false

/-- No decision outside the utility holds back a variable that is linked to the utility when a later
decision is made which does not observe it. -/
def Unhindered (d : Diagram α) (evidence : Slots) : Prop :=
  ∀ D, d.Open evidence D → D.id ∈ d.utility.scope.ids →
    ∀ D', d.Open evidence D' → D'.id ∉ d.utility.scope.ids → d.Earlier D'.id D.id →
      ∀ u ∈ D'.parents, evidence.isAssigned u = false →
        Linked (d.startTables evidence)
          (fun id => evidence.isAssigned id = false ∧ ¬ d.Seen evidence D.id id) u →
        u ∈ D.parents

omit [Scalar α] in
theorem Open.part {D : Variable} (o : d.Open evidence D) :
    takesPart (d.requisiteChance evidence) evidence D = true :=
  takesPart_iff.2 ⟨o.free, .inl o.decision⟩

/-- An open decision has its turn in a consistent order. -/
theorem Open.turn (h : d.WellFormed) {order : EliminationOrder}
    (consistent : d.Consistent order.ids (d.requisiteChance evidence) evidence) {D : Variable}
    (o : d.Open evidence D) : ∃ pre post, d.sweepOf evidence order = pre ++ D :: post :=
  List.append_of_mem ((mem_participants h).2 ⟨o.mem, o.part, consistent.complete D o.mem o.part⟩)

theorem part_of_split (h : d.WellFormed) {order : EliminationOrder} {pre post : List Variable}
    (split : d.sweepOf evidence order = pre ++ post) {v : Variable} (hv : v ∈ pre) :
    v ∈ d.vars ∧ takesPart (d.requisiteChance evidence) evidence v = true := by
  have hv : v ∈ d.sweepOf evidence order := split ▸ List.mem_append_left _ hv
  exact ⟨((mem_participants h).1 hv).1, ((mem_participants h).1 hv).2.1⟩

/-- What is linked to the utility takes part. -/
theorem active_of_linked (h : d.WellFormed) (admits : d.Admits evidence) {gone : VarId → Prop}
    {id : VarId} (free : evidence.isAssigned id = false)
    (linked : Linked (d.startTables evidence) gone id) : d.Active evidence id := by
  obtain ⟨gs, k, nodes, -, stage, projected⟩ := exists_start h admits 0
  obtain ⟨f, hf, hm⟩ := linked.mem
  obtain ⟨g, hg, p⟩ := forall₂_mem projected hf
  exact stage.live_of_mem g hg id ((p.mem_ids id).2 ⟨hm, free⟩)

/-- What has been swept along the order for some evidence when the turn of a decision comes. -/
theorem mem_swept (h : d.WellFormed) {D : Variable} (o : d.Open evidence D) {pre post : List Variable}
    (split : d.sweepOf evidence (forEvidence d evidence) = pre ++ D :: post) {u : Variable}
    (hu : u ∈ d.vars) (part : takesPart (d.requisiteChance evidence) evidence u = true) :
    u.id ∈ pre.map (·.id) ↔ d.Earlier D.id u.id ∨ (u.kind = .chance ∧ ¬ d.Seen evidence D.id u.id) := by
  rw [mem_map_id h (fun v hv => (part_of_split h split hv).1) hu]
  obtain ⟨front, back, place, rfl⟩ := participants_split h split
  rw [mem_participants h, ← mem_before h o.mem o.decision o.free place hu part]
  exact ⟨fun k => k.2.2, fun k => ⟨hu, part, k⟩⟩

/-- What is linked through variables that no decision so far observes is linked through what has been
swept, and the other way round. -/
theorem linked_swept_iff (h : d.WellFormed) (admits : d.Admits evidence) {D : Variable}
    (o : d.Open evidence D) {pre post : List Variable}
    (split : d.sweepOf evidence (forEvidence d evidence) = pre ++ D :: post) {u : VarId} :
    Linked (d.startTables evidence) (· ∈ pre.map (·.id)) u ↔
      Linked (d.startTables evidence)
        (fun id => evidence.isAssigned id = false ∧ ¬ d.Seen evidence D.id id) u := by
  constructor
  · refine fun k => k.mono fun w _ _ hw => ?_
    obtain ⟨v, hv, rfl⟩ := List.mem_map.1 hw
    obtain ⟨hm, part⟩ := part_of_split h split hv
    refine ⟨(takesPart_iff.1 part).1, ?_⟩
    rcases (mem_swept h o split hm part).1 hw with later | ⟨-, unseen⟩
    · rintro ⟨D', -, -, rfl | k, observed⟩
      · exact later.not_mem_parents h observed
      · exact (k.trans h later).not_mem_parents h observed
    · exact unseen
  · intro k
    induction k with
    | carrier hf carries hm => exact .carrier hf carries hm
    | @through f w u before hg hf hw hu ih =>
      obtain ⟨v, hv, rfl, part⟩ := active_of_linked h admits hg.1 before
      cases kind : v.kind with
      | chance => exact .through ih ((mem_swept h o split hv part).2 (.inr ⟨kind, hg.2⟩)) hf hw hu
      | decision =>
        -- only the utility mentions a decision
        have e := eq_utility_of_mem h admits hf hv kind hw
        subst e
        exact linked_of_mem_utility h hu

/-- Along an accepted order the decisions of the utility are taken last to first. -/
theorem reversed_of_accepted (h : d.WellFormed) {order : EliminationOrder}
    (consistent : d.Consistent order.ids (d.requisiteChance evidence) evidence)
    (informed : d.Informed evidence order) {D D' : Variable} (o : d.Open evidence D)
    (o' : d.Open evidence D') (hD : D.id ∈ d.utility.scope.ids) (hD' : D'.id ∈ d.utility.scope.ids)
    (k : d.Earlier D'.id D.id) {pre post : List Variable}
    (split : d.sweepOf evidence order = pre ++ D :: post) : D' ∉ pre := by
  intro hm
  obtain ⟨front, back, rfl⟩ := List.append_of_mem hm
  have split' : d.sweepOf evidence order = front ++ D' :: (back ++ D :: post) := by
    rw [split, List.append_assoc, List.cons_append]
  have nodup : (d.sweepOf evidence order).Nodup := nodup_participants h consistent.nodup
  rw [split'] at nodup
  have fresh : D.id ∉ front.map (·.id) := by
    rw [mem_map_id h (fun v hv => (part_of_split h split' hv).1) o.mem]
    exact fun hf => (List.nodup_append.1 nodup).2.2 D hf D (by simp) rfl
  rcases informed front D' _ split' o'.decision hD' D.id o.free fresh (linked_of_mem_utility h hD) with
    e | observed
  · rw [e] at k
    exact k.asymm h k
  · rw [← h.parentsOf_eq o'.mem] at observed
    exact k.not_mem_parents h observed

/-- What an earlier decision of the utility observes is left when the turn of a later one comes: the
earlier decision has its turn afterwards, and what it observes after that. -/
theorem left_of_earlier (h : d.WellFormed) {order : EliminationOrder}
    (consistent : d.Consistent order.ids (d.requisiteChance evidence) evidence)
    (informed : d.Informed evidence order) {D D' : Variable} (o : d.Open evidence D)
    (o' : d.Open evidence D') (hD : D.id ∈ d.utility.scope.ids) (hD' : D'.id ∈ d.utility.scope.ids)
    (k : d.Earlier D'.id D.id) {pre post : List Variable}
    (split : d.sweepOf evidence order = pre ++ D :: post) {u : Variable} (hu : u ∈ d.vars)
    (observed : u.id ∈ D'.parents) : u.id ∉ pre.map (·.id) := by
  intro hin
  rw [mem_map_id h (fun v hv => (part_of_split h split hv).1) hu] at hin
  have fresh := reversed_of_accepted h consistent informed o o' hD hD' k split
  obtain ⟨before, after, split'⟩ := o'.turn h consistent
  refine consistent.participants_informed h split' o'.decision u ?_ observed
  rw [split] at split'
  rcases List.append_eq_append_iff.1 split' with ⟨l, rfl, -⟩ | ⟨l, rfl, e⟩
  · exact List.mem_append_left _ hin
  · cases l with
    | nil => rwa [List.append_nil] at hin
    | cons x l =>
      rw [List.cons_append, List.cons.injEq] at e
      exact absurd (e.1 ▸ by simp) fresh

/-- What is linked when the turn of a decision comes along the order for the evidence is linked along
any order with informed decisions. -/
theorem Informed.linked_along (h : d.WellFormed) {order : EliminationOrder}
    (informed : d.Informed evidence order) {D : Variable} (decision : D.kind = .decision)
    (hD : D.id ∈ d.utility.scope.ids) {pre post pre' post' : List Variable}
    (split : d.sweepOf evidence (forEvidence d evidence) = pre ++ D :: post)
    (split' : d.sweepOf evidence order = pre' ++ D :: post') {id : VarId}
    (linked : Linked (d.startTables evidence) (· ∈ pre.map (·.id)) id) :
    Linked (d.startTables evidence) (· ∈ pre'.map (·.id)) id := by
  have nodup : (d.sweepOf evidence (forEvidence d evidence)).Nodup :=
    nodup_participants h (nodup_forEvidence h)
  rw [split] at nodup
  -- a variable on the way that the other order has not swept would be observed by the decision
  refine linked.mono fun w _ linked' hw => ?_
  obtain ⟨v, hv, rfl⟩ := List.mem_map.1 hw
  obtain ⟨hm, part⟩ := part_of_split h split hv
  by_contra left
  rcases informed pre' D post' split' decision hD v.id (takesPart_iff.1 part).1 left linked' with
    e | observed
  · have turn : D ∈ d.sweepOf evidence order := by rw [split']; simp
    rw [h.inj v hm D ((mem_participants h).1 turn).1 e] at hv
    exact (notMem_of_nodup nodup).1 hv
  · exact (consistent_forEvidence h).participants_informed h split decision v hv observed

/-- When some order is accepted and no variable is held back, decisions are informed along the order
for the evidence. -/
theorem informed_forEvidence (h : d.WellFormed) {order : EliminationOrder}
    (admits : d.Admits evidence)
    (consistent : d.Consistent order.ids (d.requisiteChance evidence) evidence)
    (informed : d.Informed evidence order) (unhindered : d.Unhindered evidence) :
    d.Informed evidence (forEvidence d evidence) := by
  intro pre D post split decision hD id free left linked
  obtain ⟨u, hu, rfl, part⟩ := active_of_linked h admits free linked
  have o : d.Open evidence D := by
    have hm : D ∈ d.sweepOf evidence (forEvidence d evidence) := by rw [split]; simp
    obtain ⟨hD, part, -⟩ := (mem_participants h).1 hm
    exact ⟨hD, decision, (takesPart_iff.1 part).1⟩
  obtain ⟨pre', post', split'⟩ := o.turn h consistent
  have done : u.id ∉ pre'.map (·.id) → u.id = D.id ∨ u.id ∈ D.parents := fun left' =>
    informed pre' D post' split' decision hD u.id free left'
      (informed.linked_along h decision hD split split' linked)
  rw [mem_swept h o split hu part, not_or, not_and, not_not] at left
  -- a decision that is left is this one or an earlier one,
  -- and a chance variable that is left is observed by such a one
  cases kind : u.kind with
  | decision =>
    by_cases same : u.id = D.id
    · exact .inl same
    · have ou : d.Open evidence u := ⟨hu, kind, free⟩
      have k := (earlier_or ((mem_decisionOrder h hu).2 kind) ((mem_decisionOrder h o.mem).2 decision)
        same).resolve_right left.1
      apply done
      rw [mem_map_id h (fun v hv => (part_of_split h split' hv).1) hu]
      exact reversed_of_accepted h consistent informed o ou hD
        (mem_utility_of_linked h admits hu kind linked) k split'
  | chance =>
    obtain ⟨D', hD', free', rfl | k, observed⟩ := left.2 kind
    · rw [h.parentsOf_eq o.mem] at observed
      exact .inr observed
    · obtain ⟨v, hv, rfl, kind'⟩ := h.mem_orderOf.1 hD'
      have o' : d.Open evidence v := ⟨hv, kind', free'⟩
      rw [h.parentsOf_eq hv] at observed
      by_cases hU : v.id ∈ d.utility.scope.ids
      · exact done (left_of_earlier h consistent informed o o' hD hU k split' hu observed)
      · refine .inr (unhindered D o hD v o' hU k u.id observed free ?_)
        exact (linked_swept_iff h admits o split).1 linked

/-- Along the order for the evidence decisions are informed only if no variable is held back. -/
theorem unhindered_of_informed (h : d.WellFormed) (admits : d.Admits evidence)
    (informed : d.Informed evidence (forEvidence d evidence)) : d.Unhindered evidence := by
  intro D o hD D' o' _ k u observed free linked
  obtain ⟨pre, post, split⟩ := o.turn h (consistent_forEvidence h)
  obtain ⟨v, hv, rfl, part⟩ := active_of_linked h admits free linked
  rw [← h.parentsOf_eq o'.mem] at observed
  have left : v.id ∉ pre.map (·.id) := by
    rw [mem_swept h o split hv part]
    rintro (later | ⟨-, unseen⟩)
    · exact (k.trans h later).not_mem_parents h observed
    · exact unseen ⟨D'.id, (mem_decisionOrder h o'.mem).2 o'.decision, o'.free, .inr k, observed⟩
  refine (informed pre D post split o.decision hD v.id free left
    ((linked_swept_iff h admits o split).2 linked)).resolve_left fun e => ?_
  rw [e] at observed
  exact k.not_mem_parents h observed

/-- When some order is accepted, the order for the evidence is not refused if no variable is held back,
and it is not accepted otherwise. -/
theorem solve_legal_of_accepted {decl : Declaration α} (built : decl.build = .ok d)
    {observations : Assignment} (valid : d.slotsOf observations = .ok evidence)
    {order : EliminationOrder} {m : Nat}
    (accepted : Accepted (answer (d.optimize order observations) m).1) (n : Nat) :
    (d.Unhindered evidence → ¬ Refused (answer (d.solve observations) n).1) ∧
    (Accepted (answer (d.solve observations) n).1 → d.Unhindered evidence) ∧
    (d.Fits → (Refused (answer (d.solve observations) n).1 ↔ ¬ d.Unhindered evidence)) := by
  have h := Declaration.wellFormed_of_build built
  have admits := h.admits_of_slotsOf valid
  obtain ⟨consistent, -⟩ := sweep_of_accepted h valid accepted
  rw [solve_eq valid n]
  have legal : d.Unhindered evidence →
      ¬ Refused (answer (d.optimize (forEvidence d evidence) observations) n).1 := fun unhindered =>
    (not_refused_of_informed h valid (consistent_forEvidence h)
      (informed_forEvidence h admits consistent (informed_of_accepted h valid accepted) unhindered) n).1
  have needed : Accepted (answer (d.optimize (forEvidence d evidence) observations) n).1 →
      d.Unhindered evidence := fun accepted' =>
    unhindered_of_informed h admits (informed_of_accepted h valid accepted')
  refine ⟨legal, needed, fun fits => ⟨fun refused unhindered => legal unhindered refused, fun k => ?_⟩⟩
  exact (accepted_or_refused h fits (forEvidence d evidence) valid n).resolve_left fun a => k (needed a)

/-- A bet on a coin, and a decision without consequences that sees the coin before. -/
def idleBet : Declaration Rat where
  vars := [⟨"C", .chance, Value.boolean, []⟩, ⟨"Idle", .decision, Value.boolean, ["C"]⟩,
    ⟨"D", .decision, Value.boolean, []⟩]
  cpts := [⟨"C", [], [1/2, 1/2]⟩]
  utilities := [⟨["C", "D"], [1, -1, -1, 1]⟩]

def idleDiagram : Diagram Rat := idleBet.build.toOption.get (by decide +kernel)

/-- The bet can be solved, but along the order for no evidence the decision without consequences holds
the coin back until the bet is made. -/
theorem hindered_idleBet :
    Accepted (answer (idleDiagram.optimize ⟨[⟨1⟩, ⟨0⟩, ⟨2⟩]⟩ NameMap.empty) 0).1 ∧
      Refused (answer (idleDiagram.solve NameMap.empty) 0).1 ∧
      ¬ idleDiagram.Unhindered Slots.empty := by
  have built : idleBet.build = .ok idleDiagram := eq_ok_get _
  have valid : idleDiagram.slotsOf NameMap.empty = .ok Slots.empty := rfl
  have fits : idleDiagram.Fits := by unfold Fits; decide +kernel
  have accepted : Accepted (answer (idleDiagram.optimize ⟨[⟨1⟩, ⟨0⟩, ⟨2⟩]⟩ NameMap.empty) 0).1 := by
    have solved : (answer (idleDiagram.optimize ⟨[⟨1⟩, ⟨0⟩, ⟨2⟩]⟩ NameMap.empty) 0).1.toOption.map
        (·.expectedUtility) = some 0 := by decide +kernel
    obtain ⟨s, m, run, -⟩ := answer_of_map solved
    exact .inl ⟨s, congrArg Prod.fst run⟩
  have stopped : (match (answer (idleDiagram.solve NameMap.empty) 0).1 with
      | .error (.illegalOrder place _) => place
      | _ => "") = "D" := by decide +kernel
  have refused : Refused (answer (idleDiagram.solve NameMap.empty) 0).1 := by
    split at stopped
    next place fault e => exact ⟨place, fault, e⟩
    next => exact absurd stopped (by decide)
  obtain ⟨-, -, legal⟩ := solve_legal_of_accepted built valid accepted 0
  exact ⟨accepted, refused, (legal fits).1 refused⟩

end Counsel.Diagram
