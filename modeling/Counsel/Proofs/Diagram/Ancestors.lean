/-
The marks of a search for ancestors are exactly the variables with a chain of arcs to a target
(`marked_ancestors`). All that one round can do is said once (`Search.Sound.visit_cases`): the parents
of what is marked are marked or wait (`Search.Sound`), and the stack together with the arcs into
unmarked variables loses one in each round (`Search.work`), since the parents of a variable are pushed
only once. So the stack empties after as many rounds as there are targets and arcs into marked
variables (`stack_eq_nil_iff`). The requisite variables are the chance variables among the ancestors of
the utility and the evidence (`marked_requisite`).
-/
import Counsel.Proofs.Diagram.Observations

namespace Counsel.Diagram

variable {α : Type}

/-- An arc: the first variable is a parent of the second. -/
def Arc (d : Diagram α) (p id : VarId) : Prop := p ∈ d.parentsOf id

/-- A chain of arcs leads from a variable to one of the targets, or it is one. -/
def Reaches (d : Diagram α) (targets : List VarId) (id : VarId) : Prop :=
  ∃ t ∈ targets, Relation.ReflTransGen d.Arc id t

/-- A variable is an ancestor of another one. -/
def Ancestor (d : Diagram α) (id t : VarId) : Prop := Relation.TransGen d.Arc id t

/-- Whether a variable is marked. -/
def Marked (marks : Array Bool) (id : VarId) : Prop := marks.getD id.index false = true

theorem Reaches.target {d : Diagram α} {targets : List VarId} {t : VarId} (h : t ∈ targets) :
    d.Reaches targets t := ⟨t, h, .refl⟩

theorem Reaches.parent {d : Diagram α} {targets : List VarId} {p id : VarId}
    (h : d.Reaches targets id) (arc : p ∈ d.parentsOf id) : d.Reaches targets p := by
  obtain ⟨t, ht, chain⟩ := h
  exact ⟨t, ht, .head arc chain⟩

theorem Reaches.mono {d : Diagram α} {targets others : List VarId} {id : VarId}
    (h : d.Reaches targets id) (sub : ∀ t ∈ targets, t ∈ others) : d.Reaches others id := by
  obtain ⟨t, ht, chain⟩ := h
  exact ⟨t, sub t ht, chain⟩

/-- What is closed under parents and has the targets has all that reaches them. -/
theorem Reaches.of_closed {d : Diagram α} {targets : List VarId} {S : VarId → Prop}
    (start : ∀ t ∈ targets, S t) (closed : ∀ id, S id → ∀ p ∈ d.parentsOf id, S p) {id : VarId}
    (h : d.Reaches targets id) : S id := by
  obtain ⟨t, ht, chain⟩ := h
  induction chain using Relation.ReflTransGen.head_induction_on with
  | refl => exact start t ht
  | head arc _ ih => exact closed _ ih _ arc

/-- What reaches a target is a target or an ancestor of one. -/
theorem reaches_iff {d : Diagram α} {targets : List VarId} {id : VarId} :
    d.Reaches targets id ↔ id ∈ targets ∨ ∃ t ∈ targets, d.Ancestor id t := by
  constructor
  · rintro ⟨t, ht, chain⟩
    rcases Relation.reflTransGen_iff_eq_or_transGen.1 chain with rfl | chain
    · exact .inl ht
    · exact .inr ⟨t, ht, chain⟩
  · rintro (ht | ⟨t, ht, chain⟩)
    · exact .target ht
    · exact ⟨t, ht, chain.to_reflTransGen⟩

/-! ## Marks -/

theorem marked_set {marks : Array Bool} {id other : VarId} {value : Bool}
    (h : id.index < marks.size) :
    Marked (marks.setIfInBounds id.index value) other ↔
      if id = other then value = true else Marked marks other := by
  unfold Marked
  simp only [Array.getD_eq_getD_getElem?, Array.getElem?_setIfInBounds]
  by_cases e : id = other
  · subst e
    simp [h]
  · have ne : id.index ≠ other.index := fun k => e (by cases id; cases other; cases k; rfl)
    rw [if_neg ne, if_neg e]

theorem marked_set_true {marks : Array Bool} {id other : VarId} (h : id.index < marks.size) :
    Marked (marks.setIfInBounds id.index true) other ↔ id = other ∨ Marked marks other := by
  rw [marked_set h]
  by_cases e : id = other <;> simp [e]

/-- The arcs into variables that are not marked. -/
def openArcs (marks : Array Bool) (vars : List Variable) : Nat :=
  (vars.map fun v => if marks.getD v.id.index false then 0 else v.parents.length).sum

/-- Marking a variable closes the arcs into it. -/
theorem openArcs_mark {marks : Array Bool} {vars : List Variable} {v : Variable} (hv : v ∈ vars)
    (nodup : (vars.map (·.id)).Nodup) (inBounds : v.id.index < marks.size)
    (fresh : ¬ Marked marks v.id) :
    openArcs (marks.setIfInBounds v.id.index true) vars + v.parents.length = openArcs marks vars := by
  obtain ⟨before, after, rfl⟩ := List.append_of_mem hv
  have others : ∀ u ∈ before ++ after, (if (marks.setIfInBounds v.id.index true).getD u.id.index false
      then 0 else u.parents.length) = if marks.getD u.id.index false then 0 else u.parents.length := by
    intro u hu
    rw [(List.perm_middle.map _).nodup_iff, List.map_cons, List.nodup_cons] at nodup
    have ne : v.id ≠ u.id := fun e => nodup.1 (e ▸ List.mem_map_of_mem hu)
    have same : Marked (marks.setIfInBounds v.id.index true) u.id ↔ Marked marks u.id := by
      rw [marked_set inBounds, if_neg ne]
    unfold Marked at same
    simp only [same]
  have now : (marks.setIfInBounds v.id.index true).getD v.id.index false = true :=
    (marked_set inBounds).2 (by rw [if_pos rfl])
  unfold Marked at fresh
  unfold openArcs
  rw [(List.perm_middle.map _).sum_eq, (List.perm_middle.map _).sum_eq, List.map_cons, List.map_cons,
    List.sum_cons, List.sum_cons, now, List.map_congr_left others, if_pos rfl, if_neg fresh]
  omega

/-- The arcs into variables that are marked. -/
def closedArcs (marks : Array Bool) (vars : List Variable) : Nat :=
  (vars.map fun v => if marks.getD v.id.index false then v.parents.length else 0).sum

/-- Each arc is open or closed. -/
theorem openArcs_add_closedArcs (marks : Array Bool) (vars : List Variable) :
    openArcs marks vars + closedArcs marks vars = (vars.map (·.parents.length)).sum := by
  rw [openArcs, closedArcs, ← List.sum_map_add]
  exact congrArg List.sum (List.map_congr_left fun v _ => by split <;> omega)

/-! ## One round of the search -/

/-- A variable is marked or waits. -/
def Search.Met (s : Search) (id : VarId) : Prop := Marked s.marks id ∨ id ∈ s.stack

/-- What a search keeps up: what waits is known; the targets, and the parents of what is marked, are
marked or wait; and nothing else does but what reaches a target. -/
structure Search.Sound (s : Search) (d : Diagram α) (targets : List VarId) : Prop where
  size : s.marks.size = d.vars.length
  known : ∀ id ∈ s.stack, ∃ v ∈ d.vars, v.id = id
  start : ∀ t ∈ targets, s.Met t
  closed : ∀ id, Marked s.marks id → ∀ p ∈ d.parentsOf id, s.Met p
  reaches : ∀ id, s.Met id → d.Reaches targets id

/-- What bounds the rounds left: each takes one entry off the stack, and closes the arcs it puts there. -/
def Search.work (s : Search) (d : Diagram α) : Nat := s.stack.length + openArcs s.marks d.vars

variable [Scalar α] {d : Diagram α} {s : Search} {targets : List VarId}

theorem WellFormed.inBounds (h : d.WellFormed) {v : Variable} (hv : v ∈ d.vars) :
    v.id.index < d.vars.length :=
  (List.getElem?_eq_some_iff.1 (h.byId?_eq_some.2 ⟨hv, rfl⟩)).1

/-- All that a round does: it drops a variable that was met before, or marks one and puts its parents
on the stack. -/
theorem Search.Sound.visit_cases (sound : s.Sound d targets) (h : d.WellFormed) :
    (s.stack = [] ∧ d.visit s = s) ∨ ∃ v ∈ d.vars, ∃ rest, s.stack = v.id :: rest ∧
      ((Marked s.marks v.id ∧ d.visit s = ⟨rest, s.marks⟩) ∨
       (¬ Marked s.marks v.id ∧
        d.visit s = ⟨v.parents.reverse ++ rest, s.marks.setIfInBounds v.id.index true⟩)) := by
  obtain ⟨stack, marks⟩ := s
  cases stack with
  | nil => exact .inl ⟨rfl, rfl⟩
  | cons top rest =>
    obtain ⟨v, hv, rfl⟩ := sound.known top List.mem_cons_self
    have inBounds : v.id.index < marks.size := sound.size ▸ h.inBounds hv
    have bit : marks.getD v.id.index true = marks.getD v.id.index false := by
      simp [Array.getD_eq_getD_getElem?, inBounds]
    refine .inr ⟨v, hv, rest, rfl, ?_⟩
    unfold visit Marked
    simp only [bit, h.parentsOf_eq hv]
    by_cases done : marks.getD v.id.index false = true
    · exact .inl ⟨done, if_pos done⟩
    · exact .inr ⟨done, if_neg done⟩

theorem Search.Sound.visit (sound : s.Sound d targets) (h : d.WellFormed) :
    (d.visit s).Sound d targets := by
  rcases sound.visit_cases h with ⟨-, same⟩ | ⟨v, hv, rest, top, ⟨done, next⟩ | ⟨fresh, next⟩⟩
  · rwa [same]
  · -- a variable that goes off the stack because it is marked is still met
    have met : ∀ id, (d.visit s).Met id ↔ s.Met id := fun id => by
      rw [next, Search.Met, Search.Met, top, List.mem_cons]
      constructor
      · exact Or.imp_right .inr
      · rintro (hid | rfl | hid)
        · exact .inl hid
        · exact .inl done
        · exact .inr hid
    have marks : (d.visit s).marks = s.marks := by rw [next]
    exact {
      size := marks ▸ sound.size
      known := fun id hid => sound.known id (by rw [next] at hid; simp [top, hid])
      start := fun t ht => (met t).2 (sound.start t ht)
      closed := fun id hid p hp => (met p).2 (sound.closed id (marks ▸ hid) p hp)
      reaches := fun id hid => sound.reaches id ((met id).1 hid) }
  · -- a variable that is marked now was met, so its parents are all that is met newly
    have inBounds : v.id.index < s.marks.size := sound.size ▸ h.inBounds hv
    have marked : ∀ id, Marked (d.visit s).marks id ↔ v.id = id ∨ Marked s.marks id := fun id => by
      rw [next, marked_set_true inBounds]
    have stack : ∀ id, id ∈ (d.visit s).stack ↔ id ∈ v.parents ∨ id ∈ rest := fun id => by
      rw [next, List.mem_append, List.mem_reverse]
    have met : ∀ id, (d.visit s).Met id ↔ s.Met id ∨ id ∈ v.parents := fun id => by
      rw [Search.Met, marked, stack, Search.Met, top, List.mem_cons]
      tauto
    have waits : s.Met v.id := .inr (top ▸ List.mem_cons_self)
    exact {
      size := by rw [next]; simpa using sound.size
      known := fun id hid => by
        rcases (stack id).1 hid with hp | hr
        · obtain ⟨u, hu, e, -⟩ := h.parents v hv id hp
          exact ⟨u, hu, e⟩
        · exact sound.known id (top ▸ List.mem_cons_of_mem _ hr)
      start := fun t ht => (met t).2 (.inl (sound.start t ht))
      closed := fun id hid p hp => (met p).2 (by
        rcases (marked id).1 hid with rfl | hid
        · exact .inr (h.parentsOf_eq hv ▸ hp)
        · exact .inl (sound.closed id hid p hp))
      reaches := fun id hid => by
        rcases (met id).1 hid with hid | hp
        · exact sound.reaches id hid
        · exact (sound.reaches v.id waits).parent (h.parentsOf_eq hv ▸ hp) }

theorem Search.Sound.work_visit (sound : s.Sound d targets) (h : d.WellFormed) (busy : s.stack ≠ []) :
    (d.visit s).work d + 1 = s.work d := by
  rcases sound.visit_cases h with ⟨empty, -⟩ | ⟨v, hv, rest, top, ⟨-, next⟩ | ⟨fresh, next⟩⟩
  · exact absurd empty busy
  · simp only [next, Search.work, top, List.length_cons]
    omega
  · have arcs := openArcs_mark hv h.nodup_ids (sound.size ▸ h.inBounds hv) fresh
    simp only [next, Search.work, top, List.length_append, List.length_reverse, List.length_cons]
    omega

/-! ## The whole search -/

/-- A search for the ancestors of some targets after so many rounds. -/
def searchAfter (d : Diagram α) (targets : List VarId) (rounds : Nat) : Search :=
  Nat.repeat d.visit rounds (d.startSearch targets)

omit [Scalar α] in
theorem not_marked_start (id : VarId) : ¬ Marked (d.startSearch targets).marks id := fun hid => by
  simp [startSearch, Marked, Array.getD_eq_getD_getElem?, Array.getElem?_replicate] at hid
  split at hid <;> simp at hid

omit [Scalar α] in
theorem sound_start (known : ∀ t ∈ targets, ∃ v ∈ d.vars, v.id = t) :
    (d.startSearch targets).Sound d targets where
  size := Array.size_replicate
  known id hid := known id (List.mem_reverse.1 hid)
  start _ ht := .inr (List.mem_reverse.2 ht)
  closed id hid := absurd hid (not_marked_start id)
  reaches id hid := .target (List.mem_reverse.1 (hid.resolve_left (not_marked_start id)))

omit [Scalar α] in
theorem work_start : (d.startSearch targets).work d =
    targets.length + (d.vars.map (·.parents.length)).sum := by
  rw [Search.work, openArcs, List.map_congr_left fun v _ => if_neg (not_marked_start v.id)]
  exact congrArg (· + _) List.length_reverse

omit [Scalar α] in
/-- A search with an empty stack does not go on. -/
theorem searchAfter_of_empty {m n : Nat} (empty : (d.searchAfter targets m).stack = []) (le : m ≤ n) :
    d.searchAfter targets n = d.searchAfter targets m := by
  induction n, le using Nat.le_induction with
  | base => rfl
  | succ n _ ih =>
    have round : d.searchAfter targets (n + 1) = d.visit (d.searchAfter targets n) := rfl
    rw [round, ih, visit, empty]

variable (h : d.WellFormed) (known : ∀ t ∈ targets, ∃ v ∈ d.vars, v.id = t)
include h known

theorem sound_after (n : Nat) : (d.searchAfter targets n).Sound d targets := by
  induction n with
  | zero => exact sound_start known
  | succ n ih => exact ih.visit h

/-- While the stack is not empty, each round takes one off the work. -/
theorem work_after {n : Nat} (busy : ∀ k < n, (d.searchAfter targets k).stack ≠ []) :
    (d.searchAfter targets n).work d + n = targets.length + (d.vars.map (·.parents.length)).sum := by
  induction n with
  | zero => exact work_start
  | succ n ih =>
    have before := ih fun k hk => busy k (by omega)
    have round : (d.searchAfter targets (n + 1)).work d + 1 = (d.searchAfter targets n).work d :=
      (sound_after h known n).work_visit h (busy n n.lt_succ_self)
    omega

/-- The search ends within the rounds it is given. -/
theorem exists_searched : ∃ n ≤ targets.length + (d.vars.map (·.parents.length)).sum,
    (d.searchAfter targets n).stack = [] := by
  by_contra none
  push Not at none
  have work := work_after h known fun k hk => none k hk.le
  refine none _ le_rfl (List.eq_nil_of_length_eq_zero ?_)
  unfold Search.work at work
  omega

theorem searchAfter_ancestors {n : Nat} (empty : (d.searchAfter targets n).stack = []) :
    d.searchAfter targets n = ⟨[], d.ancestors targets⟩ := by
  obtain ⟨m, le, ended⟩ := exists_searched h known
  have last : d.ancestors targets = (d.searchAfter targets m).marks := by
    rw [← searchAfter_of_empty ended le, List.sum_eq_foldl, List.foldl_map]
    rfl
  have same : d.searchAfter targets n = d.searchAfter targets m :=
    (searchAfter_of_empty empty (le_max_left n m)).symm.trans
      (searchAfter_of_empty ended (le_max_right n m))
  rw [same, last, ← ended]

/-- The marks are the variables that reach a target. -/
theorem marked_ancestors {id : VarId} : Marked (d.ancestors targets) id ↔ d.Reaches targets id := by
  obtain ⟨n, -, empty⟩ := exists_searched h known
  have sound := sound_after h known n
  rw [searchAfter_ancestors h known empty] at sound
  have met : ∀ id, Search.Met ⟨[], d.ancestors targets⟩ id → Marked (d.ancestors targets) id :=
    fun id hid => hid.resolve_right List.not_mem_nil
  constructor
  · exact fun hid => sound.reaches id (.inl hid)
  · exact fun reach => reach.of_closed (fun t ht => met t (sound.start t ht))
      fun id hid p hp => met p (sound.closed id hid p hp)

theorem size_ancestors : (d.ancestors targets).size = d.vars.length := by
  obtain ⟨n, -, empty⟩ := exists_searched h known
  simpa only [searchAfter_ancestors h known empty] using (sound_after h known n).size

/-- The search takes the targets off the stack, and the parents of all that it marks. -/
theorem stack_eq_nil_iff {n : Nat} : (d.searchAfter targets n).stack = [] ↔
    targets.length + closedArcs (d.ancestors targets) d.vars ≤ n := by
  classical
  have ends : ∃ n, (d.searchAfter targets n).stack = [] :=
    (exists_searched h known).imp fun _ => And.right
  -- at the first empty stack the work that is left is the arcs that were never closed
  have work := work_after h known fun k hk => Nat.find_min ends hk
  have arcs := openArcs_add_closedArcs (d.ancestors targets) d.vars
  simp only [searchAfter_ancestors h known (Nat.find_spec ends), Search.work, List.length_nil] at work
  constructor
  · intro empty
    have first := Nat.find_min' ends empty
    omega
  · intro le
    rw [searchAfter_of_empty (Nat.find_spec ends) (by omega)]
    exact Nat.find_spec ends

omit h known

/-! ## Requisite variables -/

/-- What the utility and the evidence are about. -/
def concerns (d : Diagram α) (observed : Slots) : List VarId :=
  d.utility.scope.ids ++ observed.assigned.map (·.1)

theorem known_concerns (h : d.WellFormed) {observed : Slots}
    (known : ∀ id, observed.isAssigned id = true → ∃ v ∈ d.vars, v.id = id) :
    ∀ t ∈ d.concerns observed, ∃ v ∈ d.vars, v.id = t := by
  intro t ht
  rcases List.mem_append.1 ht with ht | ht
  · obtain ⟨v, hv, e⟩ := Scope.mem_ids.1 ht
    exact ⟨v, h.built_utility.1.mem_vars v hv, e⟩
  · exact known t (Slots.mem_assigned_ids.1 ht)

omit [Scalar α] in
theorem marked_unmark {vars : List Variable} {marks : Array Bool} {id : VarId} :
    Marked (vars.foldl (fun marks v =>
      if v.isDecision then marks.setIfInBounds v.id.index false else marks) marks) id ↔
      Marked marks id ∧ ∀ v ∈ vars, v.isDecision = true → v.id ≠ id := by
  induction vars generalizing marks with
  | nil => simp
  | cons v rest ih =>
    rw [List.foldl_cons, ih, List.forall_mem_cons, ← and_assoc]
    apply and_congr_left
    intro _
    split
    next decision =>
      by_cases inBounds : v.id.index < marks.size
      · rw [marked_set inBounds]
        by_cases e : v.id = id <;> simp [e, decision]
      · rw [Array.setIfInBounds_eq_of_size_le (by omega)]
        refine ⟨fun k => ⟨k, fun _ e => inBounds ?_⟩, And.left⟩
        subst e
        unfold Marked at k
        by_contra out
        simp [Array.getD_eq_getD_getElem?, Array.getElem?_eq_none (by omega : marks.size ≤ v.id.index)] at k
    next chance => simp [chance]

/-- The requisite variables are the chance variables that reach the utility or the evidence. -/
theorem marked_requisite (h : d.WellFormed) {observed : Slots}
    (known : ∀ id, observed.isAssigned id = true → ∃ v ∈ d.vars, v.id = id)
    {v : Variable} (hv : v ∈ d.vars) : Marked (d.requisiteChance observed) v.id ↔
      v.kind = .chance ∧ d.Reaches (d.concerns observed) v.id := by
  unfold requisiteChance
  rw [marked_unmark, ← marked_ancestors h (known_concerns h known), and_comm]
  apply and_congr_left
  intro _
  rw [← isDecision_eq_false]
  constructor
  · intro k
    by_contra decision
    exact k v hv (by simpa using decision) rfl
  · intro chance u hu decision e
    rw [h.inj u hu v hv e, chance] at decision
    cases decision

end Counsel.Diagram
