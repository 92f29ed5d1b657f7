/-
Topological sorting lists every node once, parents first. The counters say how many parents of each
node are not listed yet (`Sound`); each step keeps that up while it takes the listed node off the
counters of its children (`Sound.release`), so a node becomes ready when all its parents are listed.
A sort that lists all nodes is a permutation of them with parents first (`sort_eq_ok`).
-/
import Mathlib
import Counsel.Diagram.Topological

namespace Counsel.Topological

/-- Every node of a list comes after its parents. -/
def ParentsFirst {β : Type} (parents : β → List β) (order : List β) : Prop :=
  ∀ pre n post, order = pre ++ n :: post → ∀ p ∈ parents n, p ∈ pre

/-- An order of nodes is one of their images, if these have no other parents. -/
theorem ParentsFirst.map {β γ : Type} {parents : β → List β} {others : γ → List γ} {f : β → γ}
    {order : List β} (h : ParentsFirst parents order)
    (arcs : ∀ n, ∀ q ∈ others (f n), ∃ p ∈ parents n, f p = q) :
    ParentsFirst others (order.map f) := by
  intro pre m post e q hq
  obtain ⟨a, b, rfl, rfl, hb⟩ := List.map_eq_append_iff.1 e
  obtain ⟨n, c, rfl, rfl, -⟩ := List.map_eq_cons_iff.1 hb
  obtain ⟨p, hp, rfl⟩ := arcs n q hq
  exact List.mem_map_of_mem (h a n c rfl p hp)

/-- A place in a list that has grown by one is the last one or was there before. -/
theorem split_concat {β : Type} {order pre post : List β} {m n : β}
    (e : order ++ [n] = pre ++ m :: post) :
    (pre = order ∧ m = n ∧ post = []) ∨ ∃ rest, order = pre ++ m :: rest := by
  rcases List.eq_nil_or_concat post with rfl | ⟨rest, last, rfl⟩
  · obtain ⟨rfl, e'⟩ := List.append_inj' e rfl
    cases e'
    exact .inl ⟨rfl, rfl, rfl⟩
  · rw [List.concat_eq_append, ← List.cons_append, ← List.append_assoc] at e
    exact .inr ⟨rest, (List.append_inj' e rfl).1⟩

theorem ParentsFirst.snoc {β : Type} {parents : β → List β} {order : List β}
    (h : ParentsFirst parents order) {n : β} (hn : ∀ p ∈ parents n, p ∈ order) :
    ParentsFirst parents (order ++ [n]) := by
  intro pre m post e p hp
  rcases split_concat e with ⟨rfl, rfl, -⟩ | ⟨rest, before⟩
  · exact hn p hp
  · exact h pre m rest before p hp

/-- In a list without repetitions no node is a parent of an earlier one. -/
theorem ParentsFirst.pairwise {β : Type} {parents : β → List β} {order : List β}
    (h : ParentsFirst parents order) (nodup : order.Nodup) :
    order.Pairwise fun a b => b ∉ parents a := by
  -- the induction is on what is still to come, beside what came before
  suffices rest : ∀ post pre, order = pre ++ post → post.Pairwise fun a b => b ∉ parents a from
    rest order [] rfl
  intro post
  induction post with
  | nil => exact fun _ _ => .nil
  | cons a post ih =>
    intro pre e
    refine .cons (fun b hb hp => ?_) (ih (pre ++ [a]) (by simp [e]))
    have before := h pre a post e b hp
    rw [e] at nodup
    exact (List.nodup_append.1 nodup).2.2 b before b (List.mem_cons_of_mem _ hb) rfl

/-- The parents of a node. -/
def parentsAt (parents : List (List Nat)) (node : Nat) : List Nat := parents[node]?.getD []

theorem lt_of_mem_parentsAt {parents : List (List Nat)} {n p : Nat} (h : p ∈ parentsAt parents n) :
    n < parents.length := by
  by_contra outside
  rw [parentsAt, List.getElem?_eq_none (Nat.not_lt.1 outside)] at h
  cases h

/-! ## Counters -/

theorem insertAscending_perm {n : Nat} {l : List Nat} (h : n ∉ l) :
    (insertAscending n l).Perm (n :: l) := by
  induction l with
  | nil => exact .refl _
  | cons k rest ih =>
    rw [List.mem_cons, not_or] at h
    unfold insertAscending
    rw [if_neg h.1]
    split
    next => exact .refl _
    next => exact ((ih h.2).cons k).trans (.swap n k rest)

theorem count_block (ps : List Nat) (node c child : Nat) :
    ((ps.filter (· == node)).map fun _ => c).count child =
      if c = child then ps.count node else 0 := by
  rw [List.map_const', List.count_replicate, ← List.countP_eq_length_filter, List.count]
  simp only [beq_iff_eq]

/-- A node is listed among the children of another as often as it names it. -/
theorem count_children (parents : List (List Nat)) (node child : Nat) :
    (children parents node).count child = (parentsAt parents child).count node := by
  unfold children parentsAt
  -- the induction is on the nodes, which are numbered from any number on
  suffices h : ∀ k, ((parents.zipIdx k).flatMap fun entry =>
      (entry.1.filter (· == node)).map fun _ => entry.2).count (k + child) =
        (parents[child]?.getD []).count node by simpa using h 0
  induction parents generalizing child with
  | nil => simp
  | cons ps rest ih =>
    intro k
    rw [List.zipIdx_cons, List.flatMap_cons, List.count_append, count_block]
    cases child with
    | zero =>
      have none_left : ((rest.zipIdx (k + 1)).flatMap fun entry =>
          (entry.1.filter (· == node)).map fun _ => entry.2).count (k + 0) = 0 := by
        rw [List.count_eq_zero]
        intro hc
        obtain ⟨⟨qs, i⟩, hi, hm⟩ := List.mem_flatMap.1 hc
        obtain ⟨_, -, rfl⟩ := List.mem_map.1 hm
        have := List.le_snd_of_mem_zipIdx hi
        omega
      rw [none_left]
      simp
    | succ child =>
      have shift : k + (child + 1) = k + 1 + child := by omega
      rw [if_neg (by omega), Nat.zero_add, shift, ih child (k + 1)]
      simp

theorem mem_children {parents : List (List Nat)} {node child : Nat}
    (h : child ∈ children parents node) : child < parents.length := by
  obtain ⟨⟨ps, i⟩, hi, hm⟩ := List.mem_flatMap.1 h
  obtain ⟨_, -, rfl⟩ := List.mem_map.1 hm
  simpa using List.snd_lt_of_mem_zipIdx hi

/-! ## Progress -/

/-- What a sort keeps up, while the listed node is still to be taken off the counters of some of its
children. -/
structure Sound (parents : List (List Nat)) (todo : List Nat) (s : Progress) : Prop where
  size : s.waiting.size = parents.length
  nodup : (s.order ++ s.ready).Nodup
  bound : ∀ n ∈ s.order ++ s.ready, n < parents.length
  waiting : ∀ c < parents.length, s.waiting.getD c 0 =
    (parentsAt parents c).countP (· ∉ s.order) + todo.count c
  free : ∀ n ∈ s.order ++ s.ready, s.waiting.getD n 0 = 0
  first : ParentsFirst (parentsAt parents) s.order

theorem getD_setIfInBounds {a : Array Nat} {i j x : Nat} (h : i < a.size) :
    (a.setIfInBounds i x).getD j 0 = if i = j then x else a.getD j 0 := by
  simp only [Array.getD_eq_getD_getElem?, Array.getElem?_setIfInBounds]
  split
  next e => subst e; simp
  next => rfl

/-- Taking the listed node off the counter of a child. -/
theorem Sound.release {parents : List (List Nat)} {child : Nat} {todo : List Nat} {s : Progress}
    (h : Sound parents (child :: todo) s) (lt : child < parents.length) :
    Sound parents todo (s.release child) := by
  have waits : s.waiting.getD child 0 =
      (parentsAt parents child).countP (· ∉ s.order) + (todo.count child + 1) := by
    rw [h.waiting child lt, List.count_cons_self]
  -- it waits for the listed node at least, so it is neither in the order nor ready
  have fresh : child ∉ s.order ++ s.ready := fun hc => by
    rw [h.free child hc] at waits
    omega
  have inBounds : child < s.waiting.size := by rw [h.size]; exact lt
  have counted : ∀ c < parents.length,
      (s.waiting.setIfInBounds child (s.waiting.getD child 0 - 1)).getD c 0 =
        (parentsAt parents c).countP (· ∉ s.order) + todo.count c := by
    intro c hc
    rw [getD_setIfInBounds inBounds]
    by_cases e : child = c
    · rw [if_pos e, ← e, waits]
      rfl
    · rw [if_neg e, h.waiting c hc, List.count_cons_of_ne e]
  have listed : ∀ n ∈ s.order ++ s.ready,
      (s.waiting.setIfInBounds child (s.waiting.getD child 0 - 1)).getD n 0 = 0 := by
    intro n hn
    rw [getD_setIfInBounds inBounds, if_neg (fun e : child = n => fresh (e ▸ hn)), h.free n hn]
  unfold Progress.release
  by_cases last : s.waiting.getD child 0 - 1 = 0
  · have perm : (s.order ++ insertAscending child s.ready).Perm (child :: (s.order ++ s.ready)) :=
      ((insertAscending_perm fun hc => fresh (List.mem_append_right _ hc)).append_left _).trans
        List.perm_middle
    simp only [last, if_true]
    rw [last] at counted listed
    refine ⟨by simpa using h.size, perm.nodup_iff.2 (List.nodup_cons.2 ⟨fresh, h.nodup⟩), ?_,
      counted, ?_, h.first⟩
    · intro n hn
      rcases List.mem_cons.1 (perm.mem_iff.1 hn) with rfl | hn
      · exact lt
      · exact h.bound n hn
    · intro n hn
      rcases List.mem_cons.1 (perm.mem_iff.1 hn) with rfl | hn
      · rw [getD_setIfInBounds inBounds, if_pos rfl]
      · exact listed n hn
  · simp only [last, if_false]
    exact ⟨by simpa using h.size, h.nodup, h.bound, counted, listed, h.first⟩

theorem Sound.releaseAll {parents : List (List Nat)} {todo : List Nat} {s : Progress}
    (h : Sound parents todo s) (lt : ∀ c ∈ todo, c < parents.length) :
    Sound parents [] (todo.foldl Progress.release s) := by
  induction todo generalizing s with
  | nil => exact h
  | cons child rest ih =>
    rw [List.foldl_cons]
    exact ih (h.release (lt child List.mem_cons_self)) fun c hc => lt c (List.mem_cons_of_mem _ hc)

/-- A node whose counter is down has all its parents listed. -/
theorem Sound.listed {parents : List (List Nat)} {s : Progress} (h : Sound parents [] s) {n : Nat}
    (hn : n ∈ s.order ++ s.ready) : ∀ p ∈ parentsAt parents n, p ∈ s.order := by
  have none_left := h.waiting n (h.bound n hn)
  rw [h.free n hn, List.count_nil, Nat.add_zero, eq_comm, List.countP_eq_zero] at none_left
  intro p hp
  simpa using none_left p hp

theorem countP_listed {order : List Nat} {node : Nat} (fresh : node ∉ order) (ps : List Nat) :
    ps.countP (· ∉ order) = ps.countP (· ∉ order ++ [node]) + ps.count node := by
  induction ps with
  | nil => rfl
  | cons p ps ih =>
    rw [List.countP_cons, List.countP_cons, List.count_cons]
    by_cases e : p = node
    · subst e
      simp [fresh] at ih ⊢
      omega
    · by_cases k : p ∈ order <;> simp [e, k] at ih ⊢ <;> omega

/-- Listing the next node leaves it to be taken off the counters of its children. -/
theorem Sound.list {parents : List (List Nat)} {s : Progress} (h : Sound parents [] s) {node : Nat}
    {rest : List Nat} (ready : s.ready = node :: rest) :
    Sound parents (children parents node) { s with ready := rest, order := s.order ++ [node] } := by
  have moved : s.order ++ s.ready = (s.order ++ [node]) ++ rest := by simp [ready]
  have hnode : node ∈ s.order ++ s.ready := by simp [ready]
  have fresh : node ∉ s.order := fun hn => by
    have := h.nodup
    rw [ready] at this
    exact (List.nodup_append.1 this).2.2 node hn node List.mem_cons_self rfl
  refine ⟨h.size, moved ▸ h.nodup, moved ▸ h.bound, fun c hc => ?_, moved ▸ h.free,
    h.first.snoc (h.listed hnode)⟩
  -- the node leaves the pending parents of a child as often as the child names it
  rw [h.waiting c hc, List.count_nil, count_children]
  exact countP_listed fresh _

theorem Sound.step {parents : List (List Nat)} {s : Progress} (h : Sound parents [] s) :
    Sound parents [] (s.step parents) := by
  unfold Progress.step
  split
  next => exact h
  next node rest ready => exact (h.list ready).releaseAll fun c hc => mem_children hc

theorem start_ready_ascending (parents : List (List Nat)) :
    (Progress.start parents).ready.Pairwise (· < ·) := by
  suffices h : ∀ k, ((parents.zipIdx k).filterMap fun entry =>
      if entry.1.isEmpty then some entry.2 else none).Pairwise (· < ·) from h 0
  induction parents with
  | nil => exact fun _ => .nil
  | cons ps rest ih =>
    intro k
    rw [List.zipIdx_cons, List.filterMap_cons]
    simp only
    cases ps.isEmpty with
    | false => exact ih (k + 1)
    | true =>
      refine .cons (fun i hi => ?_) (ih (k + 1))
      obtain ⟨⟨qs, j⟩, hj, hm⟩ := List.mem_filterMap.1 hi
      simp only [Option.ite_none_right_eq_some, Option.some.injEq] at hm
      have := List.le_snd_of_mem_zipIdx hj
      omega

theorem Sound.start (parents : List (List Nat)) : Sound parents [] (Progress.start parents) := by
  have ready : ∀ n ∈ (Progress.start parents).ready,
      n < parents.length ∧ parentsAt parents n = [] := by
    intro n hn
    obtain ⟨⟨ps, i⟩, hi, hm⟩ := List.mem_filterMap.1 hn
    rw [List.mk_mem_zipIdx_iff_getElem?] at hi
    obtain ⟨hlt, -⟩ := List.getElem?_eq_some_iff.1 hi
    simp only [Option.ite_none_right_eq_some, Option.some.injEq, List.isEmpty_iff] at hm
    obtain ⟨rfl, rfl⟩ := hm
    exact ⟨hlt, by rw [parentsAt, hi]; rfl⟩
  have waiting : ∀ c, (Progress.start parents).waiting.getD c 0 = (parentsAt parents c).length := by
    intro c
    unfold Progress.start parentsAt
    rw [Array.getD_eq_getD_getElem?, List.getElem?_toArray, List.getElem?_map]
    cases parents[c]? <;> rfl
  refine ⟨by simp [Progress.start], ?_, fun n hn => (ready n hn).1, fun c _ => ?_, fun n hn => ?_, ?_⟩
  · exact (start_ready_ascending parents).imp Nat.ne_of_lt
  · rw [waiting c, List.count_nil, Nat.add_zero, eq_comm, List.countP_eq_length]
    exact fun p _ => by simp [Progress.start]
  · rw [waiting n, (ready n hn).2]
    rfl
  · intro pre n post e
    simp [Progress.start] at e

theorem Sound.repeat {parents : List (List Nat)} (n : Nat) {s : Progress} (h : Sound parents [] s) :
    Sound parents [] (Nat.repeat (Progress.step parents) n s) := by
  induction n with
  | zero => exact h
  | succ n ih => exact ih.step

/-- A sort lists every node once, parents first. -/
theorem sort_eq_ok {parents : List (List Nat)} {order : List Nat} (h : sort parents = .ok order) :
    order.Perm (List.range parents.length) ∧ ParentsFirst (parentsAt parents) order := by
  unfold sort at h
  simp only at h
  split at h
  next => cases h
  next long =>
    cases h
    have sound := Sound.repeat parents.length (Sound.start parents)
    refine ⟨?_, sound.first⟩
    refine ((List.nodup_append.1 sound.nodup).1.subperm fun n hn => ?_).perm_of_length_le ?_
    · exact List.mem_range.2 (sound.bound n (List.mem_append_left _ hn))
    · rw [List.length_range]
      omega

end Counsel.Topological
