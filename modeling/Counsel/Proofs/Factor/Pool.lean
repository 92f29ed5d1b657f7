/-
Pools of shared factors, grown one factor at a time (`Factor.Pool`). Whatever was worked out before,
a step on the factors of a pool answers as it does with no memo: a value or a maximiser under some
positions (`memoValue_spec`, `memoArgmax_spec`), which leave every variable its position, and a whole
table (`materialize_spec`). Any factors of a graph are in a pool (`Graph.exists_pool`).
-/
import Counsel.Proofs.Factor.Numbering

namespace Counsel

open Outcome

/-! ## Filling in an index -/

theorem Scope.inRange_bases {vars : List Variable} {digits : List Nat} :
    MixedRadix.InRange (Scope.bases vars) digits ↔ List.Forall₂ (fun v p => p < v.card) vars digits := by
  rw [MixedRadix.inRange_iff, Scope.bases, List.forall₂_map_left_iff]

theorem Slots.Within.setAll {vars : List Variable} {slots : Slots} (h : slots.Within vars)
    (inj : ∀ u ∈ vars, ∀ v ∈ vars, u.id = v.id → u = v) {entries : List (VarId × Nat)}
    (range : ∀ e ∈ entries, ∃ v ∈ vars, v.id = e.1 ∧ e.2 < v.card) :
    (slots.setAll entries).Within vars := by
  induction entries generalizing slots with
  | nil => exact h
  | cons e rest ih =>
    obtain ⟨v, hv, hid, lt⟩ := range e List.mem_cons_self
    exact ih (hid ▸ h.set inj hv lt) fun e he => range e (List.mem_cons_of_mem _ he)

namespace Scope

variable {scope : Scope} {index : Nat}

/-- The entries that an index gives the variables of a scope. -/
def entriesAt (scope : Scope) (index : Nat) : List (VarId × Nat) :=
  scope.ids.zip (MixedRadix.decode (bases scope.vars) index)

theorem fillSlots_of_lt (h : index < scope.size) (slots : Slots) :
    scope.fillSlots index slots = .ok (slots.setAll (scope.entriesAt index)) := by
  rw [fillSlots, positionsAt, if_pos h]
  rfl

theorem fillSlots_of_not_lt (h : ¬ index < scope.size) (slots : Slots) :
    scope.fillSlots index slots = .error (.indexOutOfRange index scope.size) := by
  rw [fillSlots, positionsAt, if_neg h]

/-- The positions of an index, variable by variable. -/
theorem positions_forall₂ (h : index < scope.size) :
    List.Forall₂ (fun v p => p < v.card) scope.vars
      (MixedRadix.decode (bases scope.vars) index) :=
  Scope.inRange_bases.1 (MixedRadix.decode_inRange (MixedRadix.pos_of_lt_size h) index)

theorem ids_entriesAt (h : index < scope.size) : (scope.entriesAt index).map (·.1) = scope.ids := by
  have length := (positions_forall₂ h).length_eq
  rw [entriesAt, List.map_fst_zip]
  rw [ids, List.length_map, length]

theorem entriesAt_range (h : index < scope.size) :
    ∀ e ∈ scope.entriesAt index, ∃ v ∈ scope.vars, v.id = e.1 ∧ e.2 < v.card := by
  intro e he
  rw [entriesAt, ids, List.zip_map_left] at he
  obtain ⟨⟨v, p⟩, hvp, rfl⟩ := List.mem_map.1 he
  exact ⟨v, (List.of_mem_zip hvp).1, rfl, (List.forall₂_iff_zip.1 (positions_forall₂ h)).2 hvp⟩

/-- What is filled in does not depend on what was there. -/
theorem agreeOn_fill (h : index < scope.size) (s t : Slots) :
    (s.setAll (scope.entriesAt index)).AgreeOn scope.ids (t.setAll (scope.entriesAt index)) :=
  Slots.AgreeOn.setAll fun _ hid free => absurd (ids_entriesAt h ▸ hid) free

end Scope

namespace Factor

variable {α : Type} {vars : List Variable}

/-! ## Pools -/

/-- Factors over some variables, the latest first: each is a table, or it is computed from earlier
ones and has, if its cells are kept, a number of its own. -/
inductive Pool (vars : List Variable) : List (Factor α) → Prop
  | nil : Pool vars []
  | table {pool : List (Factor α)} {number : Nat} {scope : Scope} {role : Role} {values : Array α}
      {f : Factor α} (earlier : Pool vars pool) (sub : ∀ v ∈ scope.vars, v ∈ vars)
      (made : ofValues number scope role values = .ok f) : Pool vars (f :: pool)
  | observed {pool : List (Factor α)} {number : Nat} {base f : Factor α} {evidence : Slots}
      (earlier : Pool vars pool) (member : base ∈ pool) (within : evidence.Within vars)
      (made : observe number base evidence = .ok f) : Pool vars (f :: pool)
  | sum {pool : List (Factor α)} {number : Nat} {axis : Variable} {parts : List (Factor α)}
      {f : Factor α} (earlier : Pool vars pool)
      (fresh : ∀ g ∈ pool, g.keepsCells = true → g.head.number ≠ number) (haxis : axis ∈ vars)
      (members : ∀ part ∈ parts, part ∈ pool) (made : sumOut number axis parts = .ok f) :
      Pool vars (f :: pool)
  | max {pool : List (Factor α)} {number : Nat} {axis : Variable} {base f : Factor α}
      (earlier : Pool vars pool)
      (fresh : ∀ g ∈ pool, g.keepsCells = true → g.head.number ≠ number) (haxis : axis ∈ vars)
      (member : base ∈ pool) (made : maxOut number axis base = .ok f) : Pool vars (f :: pool)

/-- The factors of a pool form a graph. -/
theorem Pool.graph (inj : ∀ u ∈ vars, ∀ v ∈ vars, u.id = v.id → u = v) {pool : List (Factor α)}
    (h : Pool vars pool) : Graph vars (· ∈ pool) := by
  induction h with
  | nil =>
    exact ⟨inj, fun _ h => absurd h List.not_mem_nil, fun _ _ h => absurd h List.not_mem_nil,
      fun _ _ h => absurd h List.not_mem_nil⟩
  | table _ sub made graph =>
    have built : Built vars _ := .table sub made
    obtain ⟨-, rfl⟩ := ofValues_eq_ok.1 made
    simp only [List.mem_cons]
    refine graph.add built (fun keeps => nomatch keeps) fun g inside => .inl ?_
    cases inside
    rfl
  | observed _ member within made graph =>
    simp only [List.mem_cons]
    refine graph.add (.observed (graph.built _ member) within made) (fun keeps => ?_)
      (graph.inside_observe member made)
    obtain ⟨scope, -, rfl⟩ := observe_eq_ok.1 made
    cases keeps
  | sum _ fresh haxis members made graph =>
    simp only [List.mem_cons]
    exact graph.add (.sum haxis (fun part hp => graph.built part (members part hp)) made)
      (fun _ g hg keeps => number_of_sumOut made ▸ fresh g hg keeps)
      (graph.inside_sumOut members made)
  | max _ fresh haxis member made graph =>
    simp only [List.mem_cons]
    exact graph.add (.max haxis (graph.built _ member) made)
      (fun _ g hg keeps => number_of_maxOut made ▸ fresh g hg keeps)
      (graph.inside_maxOut member made)

/-- Whether any pool of factors of a graph can grow, within the graph, to have a factor. -/
def Joins (vars : List Variable) (nodes : Factor α → Prop) (f : Factor α) : Prop :=
  ∀ pool : List (Factor α), Pool vars pool → (∀ g ∈ pool, nodes g) →
    ∃ grown, Pool vars grown ∧ (∀ g ∈ grown, nodes g) ∧ (∀ g ∈ pool, g ∈ grown) ∧ f ∈ grown

variable {nodes : Factor α → Prop}

/-- Factors that can join a pool one by one can join it together. -/
theorem exists_pool_of_joins {fs : List (Factor α)} (h : ∀ f ∈ fs, Joins vars nodes f)
    {pool : List (Factor α)} (earlier : Pool vars pool) (inside : ∀ g ∈ pool, nodes g) :
    ∃ grown, Pool vars grown ∧ (∀ g ∈ grown, nodes g) ∧ (∀ g ∈ pool, g ∈ grown) ∧
      ∀ f ∈ fs, f ∈ grown := by
  induction fs generalizing pool with
  | nil => exact ⟨pool, earlier, inside, fun _ => id, by simp⟩
  | cons f rest ih =>
    obtain ⟨mid, hm, inside', sub, mem⟩ := h f List.mem_cons_self pool earlier inside
    obtain ⟨grown, hg, inside'', sub', mem'⟩ :=
      ih (fun g hg => h g (List.mem_cons_of_mem _ hg)) hm inside'
    exact ⟨grown, hg, inside'', fun g hg => sub' g (sub g hg),
      List.forall_mem_cons.2 ⟨sub' f mem, mem'⟩⟩

/-- A factor of a graph that is not in a pool of its factors has a number that is free there. -/
theorem Graph.fresh (graph : Graph vars nodes) {f : Factor α} (hf : nodes f)
    (keeps : f.keepsCells = true) {pool : List (Factor α)} (inside : ∀ g ∈ pool, nodes g)
    (new : f ∉ pool) : ∀ g ∈ pool, g.keepsCells = true → g.head.number ≠ f.head.number :=
  fun g hg gkeeps e => new (graph.unique g f (inside g hg) hf gkeeps keeps e ▸ hg)

/-- What a pool grew by stays when one more factor of the graph is put on top. -/
theorem exists_pool_of_cons {f : Factor α} (hf : nodes f) {pool mid : List (Factor α)}
    (sub : ∀ g ∈ pool, g ∈ mid) (inside : ∀ g ∈ mid, nodes g) (grown : Pool vars (f :: mid)) :
    ∃ grown, Pool vars grown ∧ (∀ g ∈ grown, nodes g) ∧ (∀ g ∈ pool, g ∈ grown) ∧ f ∈ grown :=
  ⟨f :: mid, grown, List.forall_mem_cons.2 ⟨hf, inside⟩,
    fun g hg => List.mem_cons_of_mem _ (sub g hg), List.mem_cons_self⟩

/-- Every factor of a graph can join a pool, after the factors that it is computed from. -/
theorem Graph.joins (graph : Graph vars nodes) {f : Factor α} (hf : nodes f) :
    Joins vars nodes f := by
  have built := graph.built f hf
  induction built with
  | table sub made =>
    exact fun pool earlier inside =>
      exists_pool_of_cons hf (fun _ => id) inside (.table earlier sub made)
  | @observed number base f evidence hb within made ih =>
    intro pool earlier inside
    obtain ⟨scope, -, shape⟩ := observe_eq_ok.1 made
    have hbase : nodes base := graph.closed _ _ hf (shape ▸ .observed (.self base))
    obtain ⟨mid, hm, inside', sub, mem⟩ := ih hbase pool earlier inside
    exact exists_pool_of_cons hf sub inside' (.observed hm mem within made)
  | @sum number axis parts f haxis hparts made ih =>
    intro pool earlier inside
    obtain ⟨scope, -, shape⟩ := sumOut_eq_ok.1 made
    have inner : ∀ part ∈ parts, nodes part := fun part hp =>
      graph.closed _ _ hf (shape ▸ .sum hp (.self part))
    obtain ⟨mid, hm, inside', sub, mem⟩ :=
      exists_pool_of_joins (fun part hp => ih part hp (inner part hp)) earlier inside
    by_cases old : f ∈ mid
    · exact ⟨mid, hm, inside', sub, old⟩
    · have fresh := graph.fresh hf (by rw [shape]; rfl) inside' old
      rw [number_of_sumOut made] at fresh
      exact exists_pool_of_cons hf sub inside' (.sum hm fresh haxis mem made)
  | @max number axis base f haxis hb made ih =>
    intro pool earlier inside
    obtain ⟨scope, -, shape⟩ := maxOut_eq_ok.1 made
    have hbase : nodes base := graph.closed _ _ hf (shape ▸ .max (.self base))
    obtain ⟨mid, hm, inside', sub, mem⟩ := ih hbase pool earlier inside
    by_cases old : f ∈ mid
    · exact ⟨mid, hm, inside', sub, old⟩
    · have fresh := graph.fresh hf (by rw [shape]; rfl) inside' old
      rw [number_of_maxOut made] at fresh
      exact exists_pool_of_cons hf sub inside' (.max hm fresh haxis mem made)

/-- Finitely many factors of a graph are in a pool of its factors. -/
theorem Graph.exists_pool (graph : Graph vars nodes) {fs : List (Factor α)}
    (h : ∀ f ∈ fs, nodes f) : ∃ pool, Pool vars pool ∧ ∀ f ∈ fs, f ∈ pool := by
  obtain ⟨pool, grown, -, -, mem⟩ :=
    exists_pool_of_joins (fun f hf => graph.joins (h f hf)) .nil (by simp)
  exact ⟨pool, grown, mem⟩

/-! ## Steps on a pool -/

variable [Scalar α]

open Evaluate

theorem memoArgmax_spec (graph : Graph vars nodes) {f : Factor α} (hf : nodes f) :
    Computes vars nodes f.memoArgmax f.argmax := by
  cases f with
  | max head axis base =>
    intro e within sound
    obtain ⟨after, ha, same, sound'⟩ := memoCell_spec graph hf e within sound
    refine ⟨after, ?_, same, sound'⟩
    show answer (memoCell (.max head axis base) >>= fun c => pure (some c.2)) e = _
    rw [answer_bind, ha, argmax]
    cases (Factor.max head axis base).cell e.slots <;> rfl
  | _ => exact Computes.pure none

theorem argmax_congr {f : Factor α} (built : Built vars f) {s t : Slots}
    (agree : s.AgreeOn f.scope.ids t) : f.argmax s = f.argmax t := by
  cases f with
  | max head axis base => rw [argmax, argmax, cell_congr built agree]
  | _ => rfl

theorem value_congr {f : Factor α} (built : Built vars f) {s t : Slots}
    (agree : s.AgreeOn f.scope.ids t) : f.value s = f.value t := by
  rw [value, value, cell_congr built agree]

end Factor

namespace Evaluate

variable {α β : Type} [Scalar α] {vars : List Variable} {nodes : Factor α → Prop}

/-- A step answers as a plain computation does and leaves the memo sound. It may move the positions,
but none out of its domain. -/
def Answers (vars : List Variable) (nodes : Factor α → Prop) (step : Evaluate α β)
    (plain : Slots → Except ModelError β) : Prop :=
  ∀ e : Evaluation α, e.slots.Within vars → e.memo.Sound vars nodes →
    ∃ after, answer step e = (plain e.slots, after) ∧ after.slots.Within vars ∧
      after.memo.Sound vars nodes

theorem Computes.answers {step : Evaluate α β} {plain : Slots → Except ModelError β}
    (h : Computes vars nodes step plain) : Answers vars nodes step plain := by
  intro e within sound
  obtain ⟨after, ha, same, sound'⟩ := h e within sound
  exact ⟨after, ha, same.symm.within within, sound'⟩

omit [Scalar α] in
theorem answer_fill_of_lt {scope : Scope} {index : Nat} (h : index < scope.size)
    (e : Evaluation α) : answer (Factor.fill scope index) e =
      (.ok (), { e with slots := e.slots.setAll (scope.entriesAt index) }) := by
  show Factor.fill scope index e = _
  rw [Factor.fill, Scope.fillSlots_of_lt h]

omit [Scalar α] in
theorem answer_fill_of_not_lt {scope : Scope} {index : Nat} (h : ¬ index < scope.size)
    (e : Evaluation α) : answer (Factor.fill scope index) e =
      (.error (.indexOutOfRange index scope.size), e) := by
  show Factor.fill scope index e = _
  rw [Factor.fill, Scope.fillSlots_of_not_lt h]

/-- A step for each of some indices of a scope, filled in one after the other, answers as if each was
filled in from the start. -/
theorem answers_filled (inj : ∀ u ∈ vars, ∀ v ∈ vars, u.id = v.id → u = v) {scope : Scope}
    (sub : ∀ v ∈ scope.vars, v ∈ vars) {step : Nat → Evaluate α β}
    {plain : Nat → Slots → Except ModelError β}
    (h : ∀ index, Computes vars nodes (step index) (plain index))
    (reads : ∀ index s t, s.AgreeOn scope.ids t → plain index s = plain index t)
    (indices : List Nat) :
    Answers vars nodes (indices.mapM fun index => do Factor.fill scope index; step index)
      (fun _ => indices.mapM fun index => scope.fillSlots index Slots.empty >>= plain index) := by
  induction indices with
  | nil => exact fun e within sound => ⟨e, rfl, within, sound⟩
  | cons index rest ih =>
    intro e within sound
    rw [List.mapM_cons, List.mapM_cons]
    by_cases lt : index < scope.size
    · have filled := answer_fill_of_lt lt e
      have within' := within.setAll inj fun x hx => by
        obtain ⟨v, hv, k⟩ := Scope.entriesAt_range lt x hx
        exact ⟨v, sub v hv, k⟩
      obtain ⟨mid, hm, same, sound'⟩ :=
        h index { e with slots := e.slots.setAll (scope.entriesAt index) } within' sound
      -- the positions left by the steps before are overwritten
      rw [reads index _ _ (Scope.agreeOn_fill lt e.slots Slots.empty)] at hm
      have head : answer (do Factor.fill scope index; step index) e =
          (plain index (Slots.empty.setAll (scope.entriesAt index)), mid) :=
        (answer_bind_of_ok filled _).trans hm
      rw [Scope.fillSlots_of_lt lt, Outcome.ok_bind]
      cases hp : plain index (Slots.empty.setAll (scope.entriesAt index)) with
      | error err =>
        rw [hp] at head
        exact ⟨mid, answer_bind_of_error head _, same.symm.within within', sound'⟩
      | ok b =>
        rw [hp] at head
        obtain ⟨after, ha, within'', sound''⟩ := ih mid (same.symm.within within') sound'
        refine ⟨after, ?_, within'', sound''⟩
        rw [answer_bind_of_ok head, answer_bind, ha, Outcome.ok_bind]
        cases List.mapM (fun index => scope.fillSlots index Slots.empty >>= plain index) rest <;> rfl
    · rw [Scope.fillSlots_of_not_lt lt]
      have refused := answer_bind_of_error (answer_fill_of_not_lt lt e) fun _ => step index
      exact ⟨e, answer_bind_of_error refused _, within, sound⟩

end Evaluate

namespace Factor

variable {α : Type} [Scalar α] {vars : List Variable} {nodes : Factor α → Prop}

open Evaluate

/-- Every value of a factor in the order of the indices, each worked out with no memo. -/
def cells (f : Factor α) : Except ModelError (List α) :=
  match f with
  | .table _ values => .ok values.toList
  | _ => (List.range f.scope.size).mapM fun index =>
    f.scope.fillSlots index Slots.empty >>= f.value

theorem materialize_spec (graph : Graph vars nodes) {f : Factor α} (hf : nodes f) :
    Answers vars nodes f.materialize fun _ => f.cells := by
  have rows := answers_filled graph.inj (graph.built f hf).mem_vars
    (fun _ => memoValue_spec graph hf) (fun _ _ _ => value_congr (graph.built f hf))
    (List.range f.scope.size)
  cases f with
  | table head values => exact fun e within sound => ⟨e, rfl, within, sound⟩
  | _ => exact rows

end Factor

end Counsel
