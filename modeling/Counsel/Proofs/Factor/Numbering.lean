/-
Factor numbers and evaluations. Inference gives every computed factor the next number, so the factors
of one run form a graph in the sense of `Factor.Graph` (`Numbered.observe`, `Numbered.sumOut`,
`Numbered.maxOut`). Evaluations that start from an empty memo therefore give the plain values: of a
product (`answerFrom_productOf`), and of a product for each position of a variable
(`answerFrom_weights`).
-/
import Counsel.Proofs.Factor.Memo
import Counsel.Inference.Query

namespace Counsel.Factor

open Outcome

variable {α : Type} {vars : List Variable} {nodes : Factor α → Prop} {next : Nat}

/-! ## Growing a graph -/

namespace Graph

/-- A factor made from factors of the graph extends it, unless another one has its number. -/
theorem add (graph : Graph vars nodes) {f : Factor α} (built : Built vars f)
    (fresh : f.keepsCells = true → ∀ g, nodes g → g.keepsCells = true →
      g.head.number ≠ f.head.number)
    (inside : ∀ g, Inside g f → g = f ∨ nodes g) : Graph vars fun g => g = f ∨ nodes g where
  inj := graph.inj
  built g := by
    rintro (rfl | hg)
    · exact built
    · exact graph.built g hg
  closed g k := by
    rintro (rfl | hk) hin
    · exact inside g hin
    · exact .inr (graph.closed g k hk hin)
  unique g k := by
    rintro (rfl | hg) (rfl | hk) keepsg keepsk e
    · rfl
    · exact absurd e.symm (fresh keepsg k hk keepsk)
    · exact absurd e (fresh keepsk g hg keepsg)
    · exact graph.unique g k hg hk keepsg keepsk e

theorem inside_observe (graph : Graph vars nodes) {base f : Factor α} (hbase : nodes base)
    {number : Nat} {evidence : Slots} (made : observe number base evidence = .ok f) :
    ∀ g, Inside g f → g = f ∨ nodes g := by
  obtain ⟨scope, -, rfl⟩ := observe_eq_ok.1 made
  intro g hg
  cases hg with
  | self => exact .inl rfl
  | observed hg => exact .inr (graph.closed g base hbase hg)

theorem inside_sumOut (graph : Graph vars nodes) {axis : Variable} {parts : List (Factor α)}
    (hparts : ∀ part ∈ parts, nodes part) {number : Nat} {f : Factor α}
    (made : sumOut number axis parts = .ok f) : ∀ g, Inside g f → g = f ∨ nodes g := by
  obtain ⟨scope, -, rfl⟩ := sumOut_eq_ok.1 made
  intro g hg
  cases hg with
  | self => exact .inl rfl
  | sum hp hg => exact .inr (graph.closed g _ (hparts _ hp) hg)

theorem inside_maxOut (graph : Graph vars nodes) {axis : Variable} {base f : Factor α}
    (hbase : nodes base) {number : Nat} (made : maxOut number axis base = .ok f) :
    ∀ g, Inside g f → g = f ∨ nodes g := by
  obtain ⟨scope, -, rfl⟩ := maxOut_eq_ok.1 made
  intro g hg
  cases hg with
  | self => exact .inl rfl
  | max hg => exact .inr (graph.closed g base hbase hg)

end Graph

theorem number_of_observe {number : Nat} {base f : Factor α} {evidence : Slots}
    (made : observe number base evidence = .ok f) : f.head.number = number := by
  obtain ⟨scope, -, rfl⟩ := observe_eq_ok.1 made
  rfl

theorem number_of_sumOut {number : Nat} {axis : Variable} {parts : List (Factor α)} {f : Factor α}
    (made : sumOut number axis parts = .ok f) : f.head.number = number := by
  obtain ⟨scope, -, rfl⟩ := sumOut_eq_ok.1 made
  rfl

theorem number_of_maxOut {number : Nat} {axis : Variable} {base f : Factor α}
    (made : maxOut number axis base = .ok f) : f.head.number = number := by
  obtain ⟨scope, -, rfl⟩ := maxOut_eq_ok.1 made
  rfl

/-! ## Numbers in turn -/

/-- A graph in which the factors whose cells are kept have numbers below the next one. -/
structure Numbered (vars : List Variable) (nodes : Factor α → Prop) (next : Nat) : Prop
    extends Graph vars nodes where
  below : ∀ f, nodes f → f.keepsCells = true → f.head.number < next

namespace Numbered

/-- Tables keep no cells, so their numbers do not matter. -/
theorem tables (inj : ∀ u ∈ vars, ∀ v ∈ vars, u.id = v.id → u = v)
    (h : ∀ f, nodes f → Built vars f ∧ ∃ head values, f = .table head values) :
    Numbered vars nodes next where
  inj := inj
  built f hf := (h f hf).1
  closed f g hg inside := by
    obtain ⟨-, head, values, rfl⟩ := h g hg
    cases inside
    exact hg
  unique f g hf _ keeps _ _ := by
    obtain ⟨-, head, values, rfl⟩ := h f hf
    cases keeps
  below f hf keeps := by
    obtain ⟨-, head, values, rfl⟩ := h f hf
    cases keeps

/-- The factor that takes the next number, made from factors of the graph, extends the graph. -/
theorem add (h : Numbered vars nodes next) {f : Factor α} (built : Built vars f)
    (number : f.head.number = next) (inside : ∀ g, Inside g f → g = f ∨ nodes g) :
    Numbered vars (fun g => g = f ∨ nodes g) (next + 1) where
  toGraph := h.toGraph.add built
    (fun _ g hg keeps => number ▸ Nat.ne_of_lt (h.below g hg keeps)) inside
  below g := by
    rintro (rfl | hg) keeps
    · omega
    · exact Nat.lt_succ_of_lt (h.below g hg keeps)

theorem observe (h : Numbered vars nodes next) {base f : Factor α} (hbase : nodes base)
    {evidence : Slots} (within : evidence.Within vars)
    (made : observe next base evidence = .ok f) :
    Numbered vars (fun g => g = f ∨ nodes g) (next + 1) :=
  h.add (.observed (h.built base hbase) within made) (number_of_observe made)
    (h.inside_observe hbase made)

theorem sumOut (h : Numbered vars nodes next) {axis : Variable} (haxis : axis ∈ vars)
    {parts : List (Factor α)} (hparts : ∀ part ∈ parts, nodes part) {f : Factor α}
    (made : sumOut next axis parts = .ok f) :
    Numbered vars (fun g => g = f ∨ nodes g) (next + 1) :=
  h.add (.sum haxis (fun part hp => h.built part (hparts part hp)) made) (number_of_sumOut made)
    (h.inside_sumOut hparts made)

theorem maxOut (h : Numbered vars nodes next) {axis : Variable} (haxis : axis ∈ vars)
    {base f : Factor α} (hbase : nodes base) (made : maxOut next axis base = .ok f) :
    Numbered vars (fun g => g = f ∨ nodes g) (next + 1) :=
  h.add (.max haxis (h.built base hbase) made) (number_of_maxOut made)
    (h.inside_maxOut hbase made)

end Numbered

/-! ## Evaluations -/

variable [Scalar α]

open Evaluate

theorem within_empty : Slots.empty.Within vars := fun v _ p h => by
  rw [Slots.get?_empty] at h; cases h

/-- An evaluation from an empty memo gives the plain answer. -/
theorem answerFrom_eq {β : Type} {step : Evaluate α β} {plain : Slots → Except ModelError β}
    (h : Computes vars nodes step plain) {slots : Slots} (within : slots.Within vars) :
    answerFrom slots step = plain slots := by
  obtain ⟨after, ha, -, -⟩ := h ⟨slots, Memo.empty⟩ within Memo.sound_empty
  exact congrArg Prod.fst ha

theorem memoValue_spec (graph : Graph vars nodes) {f : Factor α} (hf : nodes f) :
    Computes vars nodes f.memoValue f.value := by
  intro e within sound
  obtain ⟨after, ha, same, sound'⟩ := memoCell_spec graph hf e within sound
  refine ⟨after, ?_, same, sound'⟩
  show answer (f.memoCell >>= fun c => pure c.1) e = _
  rw [answer_bind, ha, value]
  cases f.cell e.slots <;> rfl

theorem value_same {f : Factor α} (h : Built vars f) {s t : Slots} (same : s.Same t) :
    f.value s = f.value t := by
  rw [value, value, cell_same h same]

/-- The value of a product, factor by factor. -/
def plainProduct (factors : List (Factor α)) (acc : α) (slots : Slots) : Except ModelError α :=
  factors.foldlM (fun acc f => do return acc * (← f.value slots)) acc

theorem productOf_spec (graph : Graph vars nodes) {factors : List (Factor α)}
    (h : ∀ f ∈ factors, nodes f) :
    Computes vars nodes (Diagram.productOf factors) (plainProduct factors 1) := by
  unfold Diagram.productOf plainProduct
  generalize (1 : α) = acc
  induction factors generalizing acc with
  | nil => exact Computes.pure acc
  | cons f rest ih =>
    have hrest : ∀ g ∈ rest, nodes g := fun g hg => h g (List.mem_cons_of_mem _ hg)
    simp only [List.foldlM_cons]
    refine Computes.bind ?_ (fun a => ih hrest a) fun a s t same => ?_
    · exact (memoValue_spec graph (h f List.mem_cons_self)).bind
        (fun x => Computes.pure (acc * x)) fun _ _ _ _ => rfl
    · exact foldlM_congr (fun b g hg => by rw [value_same (graph.built g (hrest g hg)) same]) a

/-- The value of a product of factors in a world. -/
def productValue (factors : List (Factor α)) (x : World) : α :=
  factors.foldl (fun (acc : α) (f : Factor α) => acc * f.valueIn x) 1

/-- Under slots that hold a world, a product of factors is what the world gives. -/
theorem plainProduct_of_holds (graph : Graph vars nodes) {factors : List (Factor α)}
    (h : ∀ f ∈ factors, nodes f) {slots : Slots} {x : World} (range : x.InRange vars)
    (holds : ∀ f ∈ factors, slots.Holds f.scope.ids x) :
    plainProduct factors 1 slots = .ok (productValue factors x) := by
  refine foldlM_eq_ok (g := fun (acc : α) (f : Factor α) => acc * f.valueIn x) (fun acc f hf => ?_) 1
  rw [value, cell_of_holds graph.inj (graph.built f (h f hf)) range (holds f hf)]
  rfl

/-- The product of factors without free variables is what any world gives. -/
theorem answerFrom_productOf (graph : Graph vars nodes) {factors : List (Factor α)}
    (h : ∀ f ∈ factors, nodes f) (closed : ∀ f ∈ factors, f.scope.vars = []) {x : World}
    (range : x.InRange vars) :
    answerFrom Slots.empty (Diagram.productOf factors) = .ok (productValue factors x) := by
  rw [answerFrom_eq (productOf_spec graph h) within_empty]
  apply plainProduct_of_holds graph h range
  intro f hf id hid
  rw [Scope.ids, closed f hf] at hid
  cases hid

/-- The product of factors for each position of the only variable that they depend on. -/
theorem answerFrom_weights (graph : Graph vars nodes) {factors : List (Factor α)}
    (h : ∀ f ∈ factors, nodes f) {v : Variable} (hv : v ∈ vars)
    (only : ∀ f ∈ factors, ∀ id ∈ f.scope.ids, id = v.id) {x : World} (range : x.InRange vars) :
    answerFrom Slots.empty (Diagram.weights factors v) =
      .ok ((List.range v.card).map fun p => productValue factors (Function.update x v.id p)) := by
  -- the loop from any positions: each product is that of the position just assigned
  have loop : ∀ positions : List Nat, (∀ p ∈ positions, p < v.card) → ∀ e : Evaluation α,
      e.slots.Within vars → e.memo.Sound vars nodes → ∃ after,
        answer (positions.mapM fun p => do assign v.id p; Diagram.productOf factors) e =
          (.ok (positions.map fun p => productValue factors (Function.update x v.id p)), after) := by
    intro positions
    induction positions with
    | nil => exact fun _ e _ _ => ⟨e, rfl⟩
    | cons p rest ih =>
      intro hp e within sound
      have lt := hp p List.mem_cons_self
      have within' := within.set graph.inj hv lt
      obtain ⟨mid, hm, same, sound'⟩ := productOf_spec graph h
        { e with slots := e.slots.set v.id (some p) } within' sound
      obtain ⟨after, ha⟩ := ih (fun q hq => hp q (List.mem_cons_of_mem _ hq)) mid
        (same.symm.within within') sound'
      rw [plainProduct_of_holds graph h (range.update graph.inj hv lt) fun f hf id hid => ?_] at hm
      · refine ⟨after, ?_⟩
        have head : answer (do assign v.id p; Diagram.productOf factors) e =
            (.ok (productValue factors (Function.update x v.id p)), mid) := by
          rw [answer_bind_of_ok (answer_assign _ _ e), hm]
        rw [List.mapM_cons, answer_bind_of_ok head, answer_bind_of_ok ha]
        rfl
      · rw [only f hf id hid, Slots.get?_set, if_pos rfl, Function.update_self]
  obtain ⟨after, ha⟩ := loop (List.range v.card) (fun p hp => List.mem_range.1 hp)
    ⟨Slots.empty, Memo.empty⟩ within_empty Memo.sound_empty
  exact congrArg Prod.fst ha

end Counsel.Factor
