/-
Topological sorting fails on cycles only. No node is forgotten: one whose counter is down is listed or
ready (`Prompt`), so a sort goes on until nothing is ready (`ready_final`), and then every node that is
not listed waits for another one that is not listed (`exists_waiting`). In a finite graph that takes a
cycle (`exists_cycle`), so exactly the nodes are left out that are on a cycle or descend from one
(`mem_final_iff`). Hence a sort succeeds exactly on the graphs without cycles (`exists_sort_iff`).
-/
import Counsel.Proofs.Diagram.Topological

namespace Counsel.Topological

/-! ## Cycles -/

/-- No node is its own ancestor. -/
def Acyclic {β : Type} (parents : β → List β) : Prop :=
  ∀ n, ¬ Relation.TransGen (fun p n => p ∈ parents n) n n

/-- Where parents come first, so do all ancestors. -/
theorem ParentsFirst.ancestors {β : Type} {parents : β → List β} {order : List β}
    (first : ParentsFirst parents order) {a n : β}
    (ancestor : Relation.TransGen (fun p n => p ∈ parents n) a n) {pre post : List β}
    (split : order = pre ++ n :: post) : a ∈ pre := by
  induction ancestor generalizing pre post with
  | single parent => exact first pre _ post split a parent
  | tail _ parent ih =>
    obtain ⟨before, after, rfl⟩ := List.append_of_mem (first pre _ post split _ parent)
    exact List.mem_append_left _ (ih (split.trans (List.append_assoc ..)))

/-- A node on a cycle, or a descendant of one. -/
def Stuck {β : Type} (parents : β → List β) (n : β) : Prop :=
  ∃ a, Relation.TransGen (fun p n => p ∈ parents n) a a ∧
    Relation.ReflTransGen (fun p n => p ∈ parents n) a n

/-- Where parents come first, no node waits for itself. -/
theorem ParentsFirst.not_stuck {β : Type} {parents : β → List β} {order : List β}
    (first : ParentsFirst parents order) {n : β} (listed : n ∈ order) : ¬ Stuck parents n := by
  rintro ⟨a, cycle, reaches⟩
  have before : a ∈ order := by
    rcases Relation.reflTransGen_iff_eq_or_transGen.1 reaches with rfl | ancestor
    · exact listed
    · obtain ⟨pre, post, rfl⟩ := List.append_of_mem listed
      exact List.mem_append_left _ (first.ancestors ancestor rfl)
  obtain ⟨pre, post, split, fresh⟩ := List.eq_append_cons_of_mem before
  exact fresh (first.ancestors cycle split)

/-- What can be listed with parents first has no cycle. -/
theorem ParentsFirst.acyclic {β : Type} {parents : β → List β} {order : List β}
    (first : ParentsFirst parents order) (listed : ∀ n p, p ∈ parents n → n ∈ order) :
    Acyclic parents := by
  intro n cycle
  obtain ⟨p, -, parent⟩ := Relation.TransGen.tail'_iff.1 cycle
  exact first.not_stuck (listed n p parent) ⟨n, cycle, .refl⟩

/-- A graph whose arcs lead along those of a graph without cycles has none either. -/
theorem Acyclic.of_map {β γ : Type} {parents : β → List β} {others : γ → List γ} (f : β → γ)
    (acyclic : Acyclic others) (arcs : ∀ n, ∀ p ∈ parents n, f p ∈ others (f n)) : Acyclic parents :=
  fun n cycle => acyclic (f n) (cycle.lift f fun p n parent => arcs n p parent)

/-- Where each of finitely many nodes has a parent among them, one of them is its own ancestor. -/
theorem exists_cycle {β : Type} {parents : β → List β} {nodes : Set β} (finite : nodes.Finite)
    (some_node : nodes.Nonempty) (waits : ∀ n ∈ nodes, ∃ p ∈ parents n, p ∈ nodes) :
    ∃ n ∈ nodes, Relation.TransGen (fun p n => p ∈ parents n) n n := by
  by_contra acyclic
  push Not at acyclic
  -- without cycles a node without ancestors among the nodes would be left, but it has a parent there
  have : Finite nodes := finite
  let below (a n : nodes) : Prop := Relation.TransGen (fun p n => p ∈ parents n) a.1 n.1
  have : IsTrans nodes below := ⟨fun _ _ _ => Relation.TransGen.trans⟩
  have : Std.Irrefl below := ⟨fun n => acyclic n n.2⟩
  obtain ⟨least, -, none_below⟩ := (Finite.wellFounded_of_trans_of_irrefl below).has_min Set.univ
    ⟨⟨_, some_node.some_mem⟩, trivial⟩
  obtain ⟨p, parent, inside⟩ := waits least.1 least.2
  exact none_below ⟨p, inside⟩ trivial (.single parent)

/-! ## Nothing is forgotten -/

variable {parents : List (List Nat)} {s : Progress}

/-- Every node whose counter is down is listed or ready. -/
def Prompt (parents : List (List Nat)) (s : Progress) : Prop :=
  ∀ c < parents.length, s.waiting.getD c 0 = 0 → c ∈ s.order ++ s.ready

theorem mem_insertAscending {n k : Nat} {l : List Nat} : k ∈ insertAscending n l ↔ k = n ∨ k ∈ l := by
  induction l with
  | nil => simp [insertAscending]
  | cons m rest ih =>
    unfold insertAscending
    split
    next => exact List.mem_cons
    next =>
      split
      next same => simp [same]
      next => rw [List.mem_cons, ih, List.mem_cons, or_left_comm]

theorem order_releaseAll (todo : List Nat) (s : Progress) :
    (todo.foldl Progress.release s).order = s.order := by
  induction todo generalizing s with
  | nil => rfl
  | cons child rest ih => exact ih _

theorem waiting_release (s : Progress) (child : Nat) :
    (s.release child).waiting = s.waiting.setIfInBounds child (s.waiting.getD child 0 - 1) := rfl

theorem ready_release (s : Progress) (child : Nat) :
    (s.release child).ready =
      if s.waiting.getD child 0 - 1 = 0 then insertAscending child s.ready else s.ready := rfl

theorem Prompt.release (h : Prompt parents s) {child : Nat} (lt : child < s.waiting.size) :
    Prompt parents (s.release child) := by
  intro c hc down
  have kept : ∀ k ∈ s.order ++ s.ready, k ∈ s.order ++ (s.release child).ready := by
    intro k hk
    refine List.mem_append.2 ((List.mem_append.1 hk).imp id fun ready => ?_)
    rw [ready_release]
    by_cases last : s.waiting.getD child 0 - 1 = 0
    · rw [if_pos last]
      exact mem_insertAscending.2 (.inr ready)
    · rwa [if_neg last]
  rw [waiting_release, getD_setIfInBounds lt] at down
  by_cases same : child = c
  · rw [if_pos same] at down
    refine List.mem_append_right _ ?_
    rw [ready_release, if_pos down]
    exact mem_insertAscending.2 (.inl same.symm)
  · rw [if_neg same] at down
    exact kept c (h c hc down)

theorem Prompt.releaseAll {todo : List Nat} (h : Prompt parents s)
    (lt : ∀ c ∈ todo, c < s.waiting.size) : Prompt parents (todo.foldl Progress.release s) := by
  induction todo generalizing s with
  | nil => exact h
  | cons child rest ih =>
    refine ih (h.release (lt child List.mem_cons_self)) fun c hc => ?_
    have := lt c (List.mem_cons_of_mem _ hc)
    simpa [Progress.release] using this

theorem Prompt.step (sound : Sound parents [] s) (h : Prompt parents s) :
    Prompt parents (s.step parents) := by
  unfold Progress.step
  split
  next => exact h
  next node rest ready =>
    refine Prompt.releaseAll (fun c hc down => ?_) fun c hc => sound.size ▸ mem_children hc
    have := h c hc down
    simpa [ready] using this

theorem prompt_start (parents : List (List Nat)) : Prompt parents (Progress.start parents) := by
  intro c hc down
  unfold Progress.start at down ⊢
  simp only [Array.getD_eq_getD_getElem?, List.getElem?_toArray, List.getElem?_map,
    List.getElem?_eq_getElem hc, Option.map_some, Option.getD_some, List.length_eq_zero_iff] at down
  refine List.mem_append_right _ (List.mem_filterMap.2 ⟨(parents[c], c), ?_, ?_⟩)
  · exact List.mk_mem_zipIdx_iff_getElem?.2 (List.getElem?_eq_getElem hc)
  · rw [down]
    rfl

/-! ## The end of a sort -/

theorem length_step {node : Nat} {rest : List Nat} (ready : s.ready = node :: rest) :
    (s.step parents).order.length = s.order.length + 1 := by
  unfold Progress.step
  rw [ready]
  simp only
  rw [order_releaseAll]
  exact List.length_append

/-- The state in which a sort ends. -/
def final (parents : List (List Nat)) : Progress :=
  Nat.repeat (Progress.step parents) parents.length (Progress.start parents)

theorem sound_final (parents : List (List Nat)) : Sound parents [] (final parents) :=
  Sound.repeat _ (Sound.start parents)

theorem prompt_repeat (parents : List (List Nat)) (n : Nat) :
    Prompt parents (Nat.repeat (Progress.step parents) n (Progress.start parents)) := by
  induction n with
  | zero => exact prompt_start parents
  | succ n ih => exact Prompt.step (Sound.repeat n (Sound.start parents)) ih

theorem prompt_final (parents : List (List Nat)) : Prompt parents (final parents) :=
  prompt_repeat parents parents.length

/-- As long as a node is ready each round lists one. -/
theorem repeat_step_ready (parents : List (List Nat)) (n : Nat) :
    (Nat.repeat (Progress.step parents) n (Progress.start parents)).order.length = n ∨
      (Nat.repeat (Progress.step parents) n (Progress.start parents)).ready = [] := by
  induction n with
  | zero => exact .inl rfl
  | succ n ih =>
    simp only [Nat.repeat]
    generalize Nat.repeat (Progress.step parents) n (Progress.start parents) = s at ih
    rcases ready : s.ready with - | ⟨node, rest⟩
    · right
      unfold Progress.step
      simp only [ready]
    · left
      rw [length_step ready]
      exact congrArg (· + 1) (ih.resolve_right (by simp [ready]))

/-- Numbers below a bound that are not repeated are as many as the bound says, or one is missing. -/
theorem length_lt_iff {l : List Nat} {n : Nat} (nodup : l.Nodup) (bound : ∀ k ∈ l, k < n) :
    l.length < n ↔ ∃ k < n, k ∉ l := by
  have few : ∀ {m : List Nat}, m.Nodup → (∀ k ∈ m, k < n) → m.length ≤ n := fun nodup bound => by
    have := (nodup.subperm fun k hk => List.mem_range.2 (bound k hk)).length_le
    rwa [List.length_range] at this
  constructor
  · intro short
    by_contra all_there
    push Not at all_there
    have := (List.nodup_range.subperm fun k hk => all_there k (List.mem_range.1 hk)).length_le
    rw [List.length_range] at this
    omega
  · rintro ⟨k, lt, missing⟩
    exact few (List.nodup_cons.2 ⟨missing, nodup⟩) (List.forall_mem_cons.2 ⟨lt, bound⟩)

/-- A sort ends when nothing is ready. -/
theorem ready_final (parents : List (List Nat)) : (final parents).ready = [] := by
  rcases repeat_step_ready parents parents.length with full | done
  · have sound := sound_final parents
    obtain ⟨distinct, -, apart⟩ := List.nodup_append.1 sound.nodup
    by_contra some_ready
    obtain ⟨n, hn⟩ := List.exists_mem_of_ne_nil _ some_ready
    have short := (length_lt_iff distinct fun k hk => sound.bound k (List.mem_append_left _ hk)).2
      ⟨n, sound.bound n (List.mem_append_right _ hn), fun listed => apart n listed n hn rfl⟩
    exact short.ne full
  · exact done

/-- Once all its parents are listed a node is listed or ready. -/
theorem Prompt.listed_or_ready (prompt : Prompt parents s) (sound : Sound parents [] s) {n : Nat}
    (lt : n < parents.length) (listed : ∀ p ∈ parentsAt parents n, p ∈ s.order) :
    n ∈ s.order ++ s.ready := by
  refine prompt n lt ?_
  rw [sound.waiting n lt, List.count_nil, Nat.add_zero, List.countP_eq_zero]
  exact fun p hp => by simpa using listed p hp

/-- When nothing is ready, a node that is not listed has a parent that is not listed. -/
theorem exists_waiting {n : Nat} (lt : n < parents.length) (unlisted : n ∉ (final parents).order) :
    ∃ p ∈ parentsAt parents n, p ∉ (final parents).order := by
  by_contra all_listed
  push Not at all_listed
  have listed := (prompt_final parents).listed_or_ready (sound_final parents) lt all_listed
  rw [ready_final, List.append_nil] at listed
  exact unlisted listed

/-- Exactly those nodes are never listed that are on a cycle or descend from one. -/
theorem mem_final_iff (bounded : ∀ n, ∀ p ∈ parentsAt parents n, p < parents.length) {n : Nat}
    (lt : n < parents.length) : n ∈ (final parents).order ↔ ¬ Stuck (parentsAt parents) n := by
  refine ⟨(sound_final parents).first.not_stuck, fun free => ?_⟩
  by_contra unlisted
  -- the ancestors that are not listed wait for each other, which takes a cycle
  let waiting : Set Nat := {m | m < parents.length ∧ m ∉ (final parents).order ∧
    Relation.ReflTransGen (fun p n => p ∈ parentsAt parents n) m n}
  have finite : waiting.Finite := (Set.finite_lt_nat parents.length).subset fun m hm => hm.1
  obtain ⟨a, ⟨-, -, reaches⟩, cycle⟩ := exists_cycle finite ⟨n, lt, unlisted, .refl⟩
    fun m ⟨hm, late, reaches⟩ => by
      obtain ⟨p, hp, waits⟩ := exists_waiting hm late
      exact ⟨p, hp, bounded m p hp, waits, .head hp reaches⟩
  exact free ⟨a, cycle, reaches⟩

/-- A sort falls short exactly if a node is on a cycle or descends from one. -/
theorem short_final_iff (bounded : ∀ n, ∀ p ∈ parentsAt parents n, p < parents.length) :
    (final parents).order.length < parents.length ↔
      ∃ n < parents.length, Stuck (parentsAt parents) n := by
  have sound := sound_final parents
  rw [length_lt_iff (List.nodup_append.1 sound.nodup).1 fun k hk =>
    sound.bound k (List.mem_append_left _ hk)]
  refine exists_congr fun n => and_congr_right fun lt => ?_
  rw [mem_final_iff bounded lt, not_not]

/-- A sort succeeds exactly if there is no cycle. -/
theorem exists_sort_iff (bounded : ∀ n, ∀ p ∈ parentsAt parents n, p < parents.length) :
    (∃ order, sort parents = .ok order) ↔ Acyclic (parentsAt parents) := by
  constructor
  · rintro ⟨order, sorted⟩
    obtain ⟨perm, first⟩ := sort_eq_ok sorted
    exact first.acyclic fun n p hp => perm.mem_iff.2 (List.mem_range.2 (lt_of_mem_parentsAt hp))
  · intro acyclic
    unfold sort
    simp only
    split
    next short =>
      obtain ⟨n, -, a, cycle, -⟩ := (short_final_iff bounded).1 short
      exact absurd cycle (acyclic a)
    next => exact ⟨_, rfl⟩

end Counsel.Topological
