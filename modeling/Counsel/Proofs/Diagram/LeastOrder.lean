/-
The order that a sort gives is the least one, compared node by node from the front. Where ready nodes
stand in ascending order, each node that is listed is the smallest that could come next (`Eager`), and
an order with that property comes before every other with parents first (`Eager.lex`). The counters of
the sort count down to zero and no further: taking a parent off a counter that is at zero would fail,
and never does (`rounds?_eq`). So of all orders of some variables with parents first they are listed in
the least one, by the order of their declaration (`sortVariables_least`).
-/
import Counsel.Proofs.Diagram.Acyclic
import Counsel.Proofs.Diagram.Build

namespace Counsel

namespace Topological

variable {parents : List (List Nat)} {s : Progress}

/-! ## Counters -/

/-- Takes a listed parent off the counter of a child, which fails if it is at zero. -/
def Progress.release? (s : Progress) (child : Nat) : Option Progress :=
  if s.waiting.getD child 0 = 0 then none else some (s.release child)

/-- Lists the next node, if one is ready, with its children's counters checked. -/
def Progress.step? (parents : List (List Nat)) (s : Progress) : Option Progress :=
  match s.ready with
  | [] => some s
  | node :: rest =>
    (children parents node).foldlM Progress.release?
      { s with ready := rest, order := s.order ++ [node] }

/-- A number of rounds of a sort with all counters checked. -/
def rounds? (parents : List (List Nat)) : Nat → Option Progress
  | 0 => some (Progress.start parents)
  | n + 1 => (rounds? parents n).bind (Progress.step? parents)

theorem Sound.release? {child : Nat} {todo : List Nat} (h : Sound parents (child :: todo) s)
    (lt : child < parents.length) : s.release? child = some (s.release child) := by
  have waits := h.waiting child lt
  rw [List.count_cons_self] at waits
  exact if_neg (by omega)

theorem Sound.releaseAll? {todo : List Nat} (h : Sound parents todo s)
    (lt : ∀ c ∈ todo, c < parents.length) :
    todo.foldlM Progress.release? s = some (todo.foldl Progress.release s) := by
  induction todo generalizing s with
  | nil => rfl
  | cons child rest ih =>
    have hchild := lt child List.mem_cons_self
    rw [List.foldlM_cons, h.release? hchild]
    exact ih (h.release hchild) fun c hc => lt c (List.mem_cons_of_mem _ hc)

theorem Sound.step? (h : Sound parents [] s) : s.step? parents = some (s.step parents) := by
  unfold Progress.step? Progress.step
  cases ready : s.ready with
  | nil => rfl
  | cons node rest => exact (h.list ready).releaseAll? fun c hc => mem_children hc

/-- In no round is a parent taken off a counter that is at zero. -/
theorem rounds?_eq (parents : List (List Nat)) (n : Nat) :
    rounds? parents n = some (Nat.repeat (Progress.step parents) n (Progress.start parents)) := by
  induction n with
  | zero => rfl
  | succ n ih =>
    rw [rounds?, ih]
    exact (Sound.repeat n (Sound.start parents)).step?

/-! ## Ready nodes -/

theorem insertAscending_ascending {n : Nat} {l : List Nat} (h : l.Pairwise (· < ·)) :
    (insertAscending n l).Pairwise (· < ·) := by
  induction h with
  | nil => exact .cons (by simp) .nil
  | @cons k rest above ascending ih =>
    unfold insertAscending
    split
    next before =>
      refine .cons (List.forall_mem_cons.2 ⟨before, fun j hj => ?_⟩) (.cons above ascending)
      exact before.trans (above j hj)
    next =>
      split
      next => exact .cons above ascending
      next =>
        refine .cons (fun j hj => ?_) ih
        rcases mem_insertAscending.1 hj with rfl | hj
        · omega
        · exact above j hj

theorem ascending_releaseAll {todo : List Nat} (h : s.ready.Pairwise (· < ·)) :
    (todo.foldl Progress.release s).ready.Pairwise (· < ·) := by
  induction todo generalizing s with
  | nil => exact h
  | cons child rest ih =>
    refine ih ?_
    rw [ready_release]
    split
    · exact insertAscending_ascending h
    · exact h

theorem ascending_step (h : s.ready.Pairwise (· < ·)) :
    (s.step parents).ready.Pairwise (· < ·) := by
  unfold Progress.step
  split
  next => exact h
  next node rest ready => exact ascending_releaseAll (List.Pairwise.of_cons (ready ▸ h))

/-! ## Eager orders -/

/-- Each node is the smallest of those that could stand in its place. -/
def Eager (parents : List (List Nat)) (order : List Nat) : Prop :=
  ∀ pre n post, order = pre ++ n :: post → ∀ k < parents.length, k ∉ pre →
    (∀ p ∈ parentsAt parents k, p ∈ pre) → n ≤ k

theorem Eager.snoc {order : List Nat} (h : Eager parents order) {n : Nat}
    (least : ∀ k < parents.length, k ∉ order → (∀ p ∈ parentsAt parents k, p ∈ order) → n ≤ k) :
    Eager parents (order ++ [n]) := by
  intro pre m post e
  rcases split_concat e with ⟨rfl, rfl, -⟩ | ⟨rest, before⟩
  · exact least
  · exact h pre m rest before

theorem Eager.step (eager : Eager parents s.order) (sound : Sound parents [] s)
    (prompt : Prompt parents s) (ascending : s.ready.Pairwise (· < ·)) :
    Eager parents (s.step parents).order := by
  unfold Progress.step
  split
  next => exact eager
  next node rest ready =>
    rw [order_releaseAll]
    refine eager.snoc fun k lt unlisted listed => ?_
    have hk := (List.mem_append.1 (prompt.listed_or_ready sound lt listed)).resolve_left unlisted
    rw [ready] at hk ascending
    rcases List.mem_cons.1 hk with rfl | later
    · exact le_rfl
    · exact ((List.pairwise_cons.1 ascending).1 k later).le

theorem eager_final (parents : List (List Nat)) : Eager parents (final parents).order := by
  -- the rounds keep up eagerness beside the order of the ready nodes
  suffices h : ∀ n, Eager parents (Nat.repeat (Progress.step parents) n (Progress.start parents)).order ∧
      (Nat.repeat (Progress.step parents) n (Progress.start parents)).ready.Pairwise (· < ·) from
    (h parents.length).1
  intro n
  induction n with
  | zero => exact ⟨fun pre m post e => by simp [Nat.repeat, Progress.start] at e,
      start_ready_ascending parents⟩
  | succ n ih => exact ⟨ih.1.step (Sound.repeat n (Sound.start parents)) (prompt_repeat parents n) ih.2,
      ascending_step ih.2⟩

/-- An eager order comes before every other order of the same nodes with parents first. -/
theorem Eager.lex {order other : List Nat} (eager : Eager parents order)
    (perm : order.Perm (List.range parents.length)) (perm' : other.Perm (List.range parents.length))
    (first : ParentsFirst (parentsAt parents) other) : order = other ∨ List.Lex (· < ·) order other := by
  -- the induction is on what is left of the order behind a part that both have in common
  suffices rest : ∀ post pre post', order = pre ++ post → other = pre ++ post' →
      post = post' ∨ List.Lex (· < ·) post post' from rest order [] other rfl rfl
  have same_length := (perm.trans perm'.symm).length_eq
  intro post
  induction post with
  | nil =>
    intro pre post' split split'
    rw [split, split', List.length_append, List.length_append, List.length_nil] at same_length
    exact .inl (List.length_eq_zero_iff.1 (by omega)).symm
  | cons n post ih =>
    intro pre post' split split'
    cases post' with
    | nil => simp [split, split'] at same_length
    | cons m post' =>
      have fresh : m ∉ pre := fun hm => by
        have nodup := perm'.nodup_iff.2 List.nodup_range
        rw [split'] at nodup
        exact (List.nodup_append.1 nodup).2.2 m hm m List.mem_cons_self rfl
      have lt : m < parents.length := List.mem_range.1 (perm'.mem_iff.1 (by simp [split']))
      rcases (eager pre n post split m lt fresh (first pre m post' split')).lt_or_eq with less | rfl
      · exact .inr (.rel less)
      · refine (ih (pre ++ [n]) post' (by simp [split]) (by simp [split'])).imp ?_ .cons
        exact congrArg (n :: ·)

/-- Of all orders with parents first a sort gives the least. -/
theorem sort_least {order other : List Nat} (sorted : sort parents = .ok order)
    (perm : other.Perm (List.range parents.length)) (first : ParentsFirst (parentsAt parents) other) :
    order = other ∨ List.Lex (· < ·) order other := by
  obtain ⟨own, -⟩ := sort_eq_ok sorted
  unfold sort at sorted
  simp only at sorted
  split at sorted
  next => cases sorted
  next =>
    cases sorted
    exact (eager_final parents).lex own perm first

/-- What has been sorted has no parents but its nodes. -/
theorem sort_bounded {order : List Nat} (sorted : sort parents = .ok order) :
    ∀ n, ∀ p ∈ parentsAt parents n, p < parents.length := by
  obtain ⟨perm, first⟩ := sort_eq_ok sorted
  intro n p hp
  have listed : n ∈ order := perm.mem_iff.2 (List.mem_range.2 (lt_of_mem_parentsAt hp))
  obtain ⟨pre, post, rfl⟩ := List.append_of_mem listed
  exact List.mem_range.1 (perm.mem_iff.1 (List.mem_append_left _ (first pre n post rfl p hp)))

end Topological

/-- The order of the variables of a kind is the part of the order of all that is of this kind. -/
theorem Diagram.WellFormed.orderOf_eq {α : Type} [Scalar α] {d : Diagram α} (h : d.WellFormed)
    (kind : Kind) : d.orderOf kind =
      d.topological.filter fun id => ∃ v ∈ d.vars, v.id = id ∧ v.kind = kind := by
  refine List.filter_congr fun id _ => ?_
  rw [Bool.eq_iff_iff, Option.any_eq_true, decide_eq_true_iff]
  simp only [h.byId?_eq_some, beq_iff_eq, and_assoc]

namespace Declaration

open Topological

/-! ## Variables -/

/-- An order has every variable of a list once, parents first; the id of a variable is its place. -/
structure Arranges (vars : List Variable) (order : List VarId) : Prop where
  perm : order.Perm ((List.range vars.length).map VarId.mk)
  first : ParentsFirst (parentIds vars) order

variable {vars : List Variable} {order other : List VarId}

theorem map_index_mk (places : List Nat) : (places.map VarId.mk).map (·.index) = places :=
  List.map_map.trans (List.map_id _)

theorem map_mk_index (ids : List VarId) : (ids.map (·.index)).map VarId.mk = ids :=
  List.map_map.trans (List.map_id _)

theorem Arranges.of_places {places : List Nat} (perm : places.Perm (List.range vars.length))
    (first : ParentsFirst (parentsAt (parentPlaces vars)) places) :
    Arranges vars (places.map VarId.mk) :=
  ⟨perm.map _, first.map fun _ q hq => ⟨q.index, mem_parentPlaces.2 hq, rfl⟩⟩

theorem Arranges.places (h : Arranges vars order) :
    (order.map (·.index)).Perm (List.range vars.length) ∧
      ParentsFirst (parentsAt (parentPlaces vars)) (order.map (·.index)) := by
  constructor
  · have := h.perm.map (·.index)
    rwa [map_index_mk] at this
  · exact h.first.map fun _ q hq => ⟨⟨q⟩, mem_parentPlaces.1 hq, rfl⟩

theorem acyclic_parentPlaces :
    Acyclic (parentsAt (parentPlaces vars)) ↔ Acyclic (parentIds vars) :=
  ⟨fun h => h.of_map (·.index) fun _ _ hp => mem_parentPlaces.2 hp,
    fun h => h.of_map VarId.mk fun _ _ hp => mem_parentPlaces.1 hp⟩

/-- Variables can be sorted exactly if they have no cycle and their parents are among them. -/
theorem exists_sortVariables_iff : (∃ order, sortVariables vars = .ok order) ↔
    Acyclic (parentIds vars) ∧ ∀ v ∈ vars, ∀ p ∈ v.parents, p.index < vars.length := by
  have bounds : (∀ v ∈ vars, ∀ p ∈ v.parents, p.index < vars.length) ↔
      ∀ n, ∀ p ∈ parentsAt (parentPlaces vars) n, p < (parentPlaces vars).length := by
    rw [parentPlaces, List.length_map, ← parentPlaces]
    constructor
    · intro inside n p hp
      obtain ⟨v, hv, arc⟩ := mem_parentIds.1 (mem_parentPlaces.1 hp)
      exact inside v (List.mem_of_getElem? hv) _ arc
    · intro inside v hv p hp
      obtain ⟨n, hn⟩ := List.mem_iff_getElem?.1 hv
      exact inside n p.index (mem_parentPlaces.2 (mem_parentIds.2 ⟨v, hn, hp⟩))
  rw [bounds, ← acyclic_parentPlaces]
  constructor
  · rintro ⟨order, h⟩
    obtain ⟨places, sorted, -⟩ := sortVariables_eq_ok_iff.1 h
    have bounded := sort_bounded sorted
    exact ⟨(exists_sort_iff bounded).1 ⟨places, sorted⟩, bounded⟩
  · rintro ⟨acyclic, bounded⟩
    obtain ⟨places, sorted⟩ := (exists_sort_iff bounded).2 acyclic
    exact ⟨_, sortVariables_eq_ok_iff.2 ⟨places, sorted, rfl⟩⟩

/-- Variables can be sorted exactly if they have no cycle, and then they are listed in the least of all
orders with parents first; no counter of the sort is taken below zero. A diagram lists its chance
variables and its decisions as they come in this order. -/
theorem sortVariables_least (vars : List Variable) :
    ((∃ order, sortVariables vars = .ok order) ↔
      Acyclic (parentIds vars) ∧ ∀ v ∈ vars, ∀ p ∈ v.parents, p.index < vars.length) ∧
    (∀ order, sortVariables vars = .ok order → Arranges vars order ∧
      ∀ other, Arranges vars other → order = other ∨
        List.Lex (· < ·) (order.map (·.index)) (other.map (·.index))) ∧
    (∀ n, rounds? (parentPlaces vars) n =
      some (Nat.repeat (Progress.step (parentPlaces vars)) n (Progress.start (parentPlaces vars)))) ∧
    ∀ {α : Type} [Scalar α] (decl : Declaration α) (d : Diagram α), decl.build = .ok d →
      d.vars = vars → sortVariables vars = .ok d.topological ∧
      d.chanceOrder = d.topological.filter (fun id => ∃ v ∈ vars, v.id = id ∧ v.kind = .chance) ∧
      d.decisionOrder = d.topological.filter (fun id => ∃ v ∈ vars, v.id = id ∧ v.kind = .decision) := by
  refine ⟨exists_sortVariables_iff, fun order h => ?_, rounds?_eq _, fun _ d built same => ?_⟩
  · obtain ⟨places, sorted, rfl⟩ := sortVariables_eq_ok_iff.1 h
    have length : (parentPlaces vars).length = vars.length := List.length_map _
    obtain ⟨perm, first⟩ := sort_eq_ok sorted
    refine ⟨.of_places (length ▸ perm) first, fun other arranged => ?_⟩
    obtain ⟨perm', first'⟩ := arranged.places
    rw [map_index_mk]
    refine (sort_least sorted (length ▸ perm') first').imp_left fun same => ?_
    rw [same, map_mk_index]
  · subst same
    have wf := wellFormed_of_build built
    obtain ⟨-, cpts, -, -, sorted, -⟩ := build_eq_ok.1 built
    exact ⟨sorted, wf.orderOf_eq _, wf.orderOf_eq _⟩

/-- Whether to act on a signal that is looked at twice. -/
def lookout : Declaration Rat where
  vars := [⟨"Act", .decision, Value.boolean, ["Signal", "Signal"]⟩,
    ⟨"Signal", .chance, Value.boolean, []⟩, ⟨"Noise", .chance, Value.boolean, []⟩]
  cpts := [⟨"Signal", [], [1/2, 1/2]⟩, ⟨"Noise", [], [9/10, 1/10]⟩]
  utilities := [⟨["Act", "Signal"], [1, 0, 0, 1]⟩]

def lookoutDiagram : Diagram Rat := lookout.build.toOption.get (by decide +kernel)

/-- The decision waits for the signal, once though it names it twice, and comes before the noise. -/
theorem sortVariables_lookout :
    sortVariables lookoutDiagram.vars = .ok [⟨1⟩, ⟨0⟩, ⟨2⟩] ∧
      (∀ other, Arranges lookoutDiagram.vars other → [⟨1⟩, ⟨0⟩, ⟨2⟩] = other ∨
        List.Lex (· < ·) [1, 0, 2] (other.map (·.index))) ∧
      lookoutDiagram.chanceOrder = [⟨1⟩, ⟨2⟩] ∧ lookoutDiagram.decisionOrder = [⟨0⟩] := by
  have sorted : sortVariables lookoutDiagram.vars = .ok [⟨1⟩, ⟨0⟩, ⟨2⟩] := by decide +kernel
  obtain ⟨-, least, -, orders⟩ := sortVariables_least lookoutDiagram.vars
  obtain ⟨-, chances, decisions⟩ := orders lookout _ (Outcome.eq_ok_get _) rfl
  exact ⟨sorted, (least _ sorted).2, chances.trans (by decide +kernel),
    decisions.trans (by decide +kernel)⟩

end Declaration

end Counsel
