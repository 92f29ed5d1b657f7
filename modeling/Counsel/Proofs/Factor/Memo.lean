/-
Evaluation with a memo gives what evaluation without one gives. The memo is sound for a graph of
factors when every kept cell is the cell of its factor under all positions in range with its index
(`Memo.Sound`); a graph numbers its sums and maxima apart (`Graph`). From a sound memo, an evaluation
answers as `Factor.cell` does, errors included, leaves a sound memo, and leaves every variable the
position that it had (`memoCell_spec`). So `answerFrom` is the plain evaluation.
-/
import Counsel.Proofs.Factor.Cell
import Counsel.Diagram.Memo

namespace Counsel

open Outcome

namespace Factor

variable {α : Type}

/-! ## Graphs of factors -/

/-- Whether cells of a factor are kept: those of sums and of maxima are. -/
def keepsCells : Factor α → Bool
  | .table .. | .observed .. => false
  | .sum .. | .max .. => true

/-- A factor is another one or one of those that it is computed from. -/
inductive Inside : Factor α → Factor α → Prop
  | self (f : Factor α) : Inside f f
  | observed {f base : Factor α} {head : FactorHead} {evidence : List (VarId × Nat)} :
      Inside f base → Inside f (.observed head base evidence)
  | sum {f part : Factor α} {head : FactorHead} {axis : Variable} {parts : List (Factor α)} :
      part ∈ parts → Inside f part → Inside f (.sum head axis parts)
  | max {f base : Factor α} {head : FactorHead} {axis : Variable} :
      Inside f base → Inside f (.max head axis base)

/-- A set of factors over some variables with all that they are computed from, in which no two
factors whose cells are kept have the same number. -/
structure Graph (vars : List Variable) (nodes : Factor α → Prop) : Prop where
  inj : ∀ u ∈ vars, ∀ v ∈ vars, u.id = v.id → u = v
  built : ∀ f, nodes f → Built vars f
  closed : ∀ f g, nodes g → Inside f g → nodes f
  unique : ∀ f g, nodes f → nodes g → f.keepsCells = true → g.keepsCells = true →
    f.head.number = g.head.number → f = g

end Factor

namespace Memo

variable {α : Type}

theorem key_inj {n m i j : Nat} (hi : i < MixedRadix.indexLimit) (hj : j < MixedRadix.indexLimit)
    (h : key n i = key m j) : n = m ∧ i = j := by
  unfold key at h
  have hn := congrArg (· / MixedRadix.indexLimit) h
  have hm := congrArg (· % MixedRadix.indexLimit) h
  have pos : 0 < MixedRadix.indexLimit := Nat.zero_lt_of_lt hi
  simp only [Nat.mul_comm _ MixedRadix.indexLimit, Nat.mul_add_div pos, Nat.mul_add_mod,
    Nat.div_eq_of_lt hi, Nat.div_eq_of_lt hj, Nat.mod_eq_of_lt hi, Nat.mod_eq_of_lt hj] at hn hm
  exact ⟨hn, hm⟩

@[simp] theorem get?_empty (n i : Nat) : (empty : Memo α).get? n i = none := by
  simp [get?, empty]

theorem get?_insert (memo : Memo α) (n i m j : Nat) (c : α × Nat) :
    (memo.insert n i c).get? m j = if key n i = key m j then some c else memo.get? m j := by
  rw [get?, insert, Std.TreeMap.getElem?_insert]
  simp only [Nat.compare_eq_eq]
  rfl

variable [Scalar α] {vars : List Variable} {nodes : Factor α → Prop}

/-- Every kept cell is the cell of its factor, under all positions in range that have its index. -/
def Sound (vars : List Variable) (nodes : Factor α → Prop) (memo : Memo α) : Prop :=
  ∀ f, nodes f → f.keepsCells = true → ∀ slots : Slots, slots.Within vars → ∀ index,
    f.scope.indexOfSlots slots = .ok index → ∀ c, memo.get? f.head.number index = some c →
      f.cell slots = .ok c

theorem sound_empty : (empty : Memo α).Sound vars nodes := fun _ _ _ _ _ _ _ c h => by
  rw [get?_empty] at h; cases h

/-- Keeping the cell of a factor under some positions keeps the memo sound. -/
theorem Sound.insert {memo : Memo α} (graph : Factor.Graph vars nodes) (h : memo.Sound vars nodes)
    {f : Factor α} (hf : nodes f) (keeps : f.keepsCells = true) {slots : Slots}
    (within : slots.Within vars) {index : Nat} (hi : f.scope.indexOfSlots slots = .ok index)
    {c : α × Nat} (hc : f.cell slots = .ok c) :
    (memo.insert f.head.number index c).Sound vars nodes := by
  intro g hg gkeeps other owithin j hj d hd
  rw [get?_insert] at hd
  split at hd
  next e =>
    cases hd
    have built := graph.built f hf
    obtain ⟨en, rfl⟩ := key_inj (Scope.index_lt_limit hi (built.within within))
      (Scope.index_lt_limit hj ((graph.built g hg).within owithin)) e
    cases graph.unique f g hf hg keeps gkeeps en
    rw [← hc]
    apply Factor.cell_congr built
    exact Scope.agreeOn_of_index_eq hj hi (built.within owithin) (built.within within)
  next => exact h g hg gkeeps other owithin j hj d hd

end Memo

namespace Evaluate

variable {α β γ : Type}

/-! ## Steps -/

theorem answer_assign (id : VarId) (position : Nat) (e : Evaluation α) :
    answer (assign id position) e = (.ok (), { e with slots := e.slots.set id (some position) }) := rfl

theorem answer_index (scope : Scope) (e : Evaluation α) :
    answer (index scope) e = (scope.indexOfSlots e.slots, e) := rfl

theorem answer_restoring (id : VarId) (step : Evaluate α β) (e : Evaluation α) :
    answer (restoring id step) e = ((answer step e).1,
      { (answer step e).2 with slots := (answer step e).2.slots.set id (e.slots.get? id) }) := rfl

variable [Scalar α] {vars : List Variable} {nodes : Factor α → Prop}

/-- A step answers as a plain computation does, gives every variable its position back, and leaves
the memo sound. -/
def Computes (vars : List Variable) (nodes : Factor α → Prop) (step : Evaluate α β)
    (plain : Slots → Except ModelError β) : Prop :=
  ∀ e : Evaluation α, e.slots.Within vars → e.memo.Sound vars nodes →
    ∃ after, answer step e = (plain e.slots, after) ∧ after.slots.Same e.slots ∧
      after.memo.Sound vars nodes

theorem Computes.pure (x : β) : Computes vars nodes (pure x) fun _ => .ok x :=
  fun e _ sound => ⟨e, rfl, .refl _, sound⟩

/-- Plain computations that read only look-ups can follow one another. -/
theorem Computes.bind {step : Evaluate α β} {plain : Slots → Except ModelError β}
    {next : β → Evaluate α γ} {plainNext : β → Slots → Except ModelError γ}
    (h : Computes vars nodes step plain) (k : ∀ b, Computes vars nodes (next b) (plainNext b))
    (congr : ∀ b s t, s.Same t → plainNext b s = plainNext b t) :
    Computes vars nodes (step >>= next) fun s => plain s >>= fun b => plainNext b s := by
  intro e within sound
  obtain ⟨after, ha, same, sound'⟩ := h e within sound
  simp only
  cases hp : plain e.slots with
  | error err =>
    rw [hp] at ha
    exact ⟨after, answer_bind_of_error ha _, same, sound'⟩
  | ok b =>
    rw [hp] at ha
    obtain ⟨last, hl, same', sound''⟩ := k b after (same.symm.within within) sound'
    refine ⟨last, ?_, same'.trans same, sound''⟩
    rw [answer_bind_of_ok ha, hl, congr b _ _ same, ok_bind]

/-- A step under evidence computes what the plain computation gives under the evidence. -/
theorem Computes.under (inj : ∀ u ∈ vars, ∀ v ∈ vars, u.id = v.id → u = v) {step : Evaluate α β}
    {plain : Slots → Except ModelError β} (h : Computes vars nodes step plain)
    {evidence : List (VarId × Nat)}
    (range : ∀ e ∈ evidence, ∃ v ∈ vars, v.id = e.1 ∧ e.2 < v.card) :
    Computes vars nodes (under step evidence) fun s => plain (s.setAll evidence) := by
  induction evidence with
  | nil => exact h
  | cons entry rest ih =>
    intro e within sound
    obtain ⟨v, hv, hid, hp⟩ := range entry List.mem_cons_self
    have within' : (e.slots.set entry.1 (some entry.2)).Within vars :=
      hid ▸ within.set inj hv hp
    obtain ⟨after, ha, same, sound'⟩ := ih (fun x hx => range x (List.mem_cons_of_mem _ hx))
      { e with slots := e.slots.set entry.1 (some entry.2) } within' sound
    refine ⟨{ after with slots := after.slots.set entry.1 (e.slots.get? entry.1) }, ?_, ?_, sound'⟩
    · rw [Evaluate.under, answer_restoring, answer_bind_of_ok (answer_assign _ _ e), ha]
      rfl
    · exact (same.set _ _).trans (Slots.set_get? _ _ _)

/-- A loop over the positions of a variable, each assigned before a step, answers as the plain loop does
and changes no other variable. -/
theorem answer_positions (inj : ∀ u ∈ vars, ∀ v ∈ vars, u.id = v.id → u = v) {axis : Variable}
    (haxis : axis ∈ vars) {step : β → Nat → Evaluate α β}
    {plain : β → Nat → Slots → Except ModelError β}
    (h : ∀ b p, Computes vars nodes (step b p) (plain b p))
    (congr : ∀ b p s t, s.Same t → plain b p s = plain b p t) {positions : List Nat}
    (range : ∀ p ∈ positions, p < axis.card) (b : β) {e : Evaluation α} (within : e.slots.Within vars)
    (sound : e.memo.Sound vars nodes) :
    ∃ after, answer (positions.foldlM (fun b p => do assign axis.id p; step b p) b) e =
      (positions.foldlM (fun b p => plain b p (e.slots.set axis.id (some p))) b, after) ∧
      (∀ id, id ≠ axis.id → after.slots.get? id = e.slots.get? id) ∧
      after.memo.Sound vars nodes := by
  induction positions generalizing b e with
  | nil => exact ⟨e, rfl, fun _ _ => rfl, sound⟩
  | cons p rest ih =>
    have within' := within.set inj haxis (range p List.mem_cons_self)
    obtain ⟨mid, hm, same, sound'⟩ :=
      h b p { e with slots := e.slots.set axis.id (some p) } within' sound
    have off : ∀ id, id ≠ axis.id → mid.slots.get? id = e.slots.get? id := fun id ne => by
      rw [same id, Slots.get?_set, if_neg (Ne.symm ne)]
    have head : answer (do assign axis.id p; step b p) e =
        (plain b p (e.slots.set axis.id (some p)), mid) := by
      rw [answer_bind_of_ok (answer_assign _ _ e), hm]
    cases hp : plain b p (e.slots.set axis.id (some p)) with
    | error err =>
      rw [hp] at head
      refine ⟨mid, ?_, off, sound'⟩
      rw [List.foldlM_cons, List.foldlM_cons, answer_bind_of_error head, hp]
      rfl
    | ok b' =>
      rw [hp] at head
      obtain ⟨after, ha, off', sound''⟩ := ih (fun q hq => range q (List.mem_cons_of_mem _ hq)) b'
        (same.symm.within within') sound'
      refine ⟨after, ?_, fun id ne => (off' id ne).trans (off id ne), sound''⟩
      rw [List.foldlM_cons, List.foldlM_cons, answer_bind_of_ok head, ha, hp, ok_bind]
      congr 1
      -- the rest of the plain loop reads the slots from before the step
      refine foldlM_congr (fun c q _ => congr c q _ _ fun id => ?_) b'
      rw [Slots.get?_set, Slots.get?_set]
      split
      next => rfl
      next ne => exact off id (Ne.symm ne)

/-- The loop computes the plain loop when the variable is given its position back afterwards. -/
theorem Computes.loop (inj : ∀ u ∈ vars, ∀ v ∈ vars, u.id = v.id → u = v) {axis : Variable}
    (haxis : axis ∈ vars) {step : β → Nat → Evaluate α β}
    {plain : β → Nat → Slots → Except ModelError β}
    (h : ∀ b p, Computes vars nodes (step b p) (plain b p))
    (congr : ∀ b p s t, s.Same t → plain b p s = plain b p t) {positions : List Nat}
    (range : ∀ p ∈ positions, p < axis.card) (b : β) (result : β → γ) :
    Computes vars nodes
      (restoring axis.id do
        return result (← positions.foldlM (fun b p => do assign axis.id p; step b p) b))
      fun s => do
        return result (← positions.foldlM (fun b p => plain b p (s.set axis.id (some p))) b) := by
  intro e within sound
  obtain ⟨after, ha, off, sound'⟩ := answer_positions inj haxis h congr range b within sound
  have done : answer (do
      return result (← positions.foldlM (fun b p => do assign axis.id p; step b p) b)) e =
      ((do return result (← positions.foldlM
        (fun b p => plain b p (e.slots.set axis.id (some p))) b)), after) := by
    rw [answer_bind, ha]
    cases positions.foldlM (fun b p => plain b p (e.slots.set axis.id (some p))) b <;> rfl
  refine ⟨{ after with slots := after.slots.set axis.id (e.slots.get? axis.id) }, ?_, ?_, sound'⟩
  · rw [answer_restoring, done]
  · intro id
    rw [Slots.get?_set]
    split
    next e' => rw [e']
    next ne => exact off id (Ne.symm ne)

/-- A kept cell is the answer, and a computed one is kept. -/
theorem Computes.remember (graph : Factor.Graph vars nodes) {f : Factor α} (hf : nodes f)
    (keeps : f.keepsCells = true) {compute : Evaluate α (α × Nat)}
    {plain : Slots → Except ModelError (α × Nat)} (h : Computes vars nodes compute plain)
    (cell : ∀ s, f.cell s = f.scope.indexOfSlots s >>= fun _ => plain s) :
    Computes vars nodes (index f.scope >>= fun i => remember f.head.number i compute) f.cell := by
  intro e within sound
  rw [cell]
  cases hi : f.scope.indexOfSlots e.slots with
  | error err =>
    have failed : answer (index f.scope) e = (.error err, e) := by rw [answer_index, hi]
    exact ⟨e, by rw [answer_bind_of_error failed]; rfl, .refl _, sound⟩
  | ok i =>
    have found : answer (index f.scope) e = (.ok i, e) := by rw [answer_index, hi]
    have plain_eq : f.cell e.slots = plain e.slots := by rw [cell, hi]; rfl
    rw [answer_bind_of_ok found, Outcome.ok_bind]
    have got : answer (get : Evaluate α (Evaluation α)) e = (.ok e, e) := rfl
    unfold Evaluate.remember
    rw [answer_bind_of_ok got]
    cases hm : e.memo.get? f.head.number i with
    | some c =>
      refine ⟨e, ?_, .refl _, sound⟩
      rw [← plain_eq, sound f hf keeps e.slots within i hi c hm]
      rfl
    | none =>
      obtain ⟨after, ha, same, sound'⟩ := h e within sound
      cases hp : plain e.slots with
      | error err =>
        rw [hp] at ha
        exact ⟨after, answer_bind_of_error ha _, same, sound'⟩
      | ok c =>
        rw [hp] at ha
        refine ⟨{ after with memo := after.memo.insert f.head.number i c }, ?_, same, ?_⟩
        · rw [answer_bind_of_ok ha]; rfl
        · exact sound'.insert graph hf keeps within hi (plain_eq.trans hp)

end Evaluate

namespace Factor

variable {α : Type} [Scalar α] {vars : List Variable} {nodes : Factor α → Prop}

open Evaluate

/-! ## Cells -/

theorem cell_same {f : Factor α} (h : Built vars f) {s t : Slots} (same : s.Same t) :
    f.cell s = f.cell t := cell_congr h (same.agreeOn _)

theorem memoProduct_spec (graph : Graph vars nodes) {parts : List (Factor α)}
    (hparts : ∀ part ∈ parts, nodes part)
    (h : ∀ part ∈ parts, Computes vars nodes part.memoCell part.cell) (acc : α) :
    Computes vars nodes (memoProduct parts acc) fun s => product parts s acc := by
  induction parts generalizing acc with
  | nil =>
    rw [memoProduct]
    simp only [product]
    exact Computes.pure acc
  | cons f rest ih =>
    have hrest : ∀ part ∈ rest, nodes part := fun part hp => hparts part (List.mem_cons_of_mem _ hp)
    rw [memoProduct]
    simp only [product]
    refine Computes.bind (h f List.mem_cons_self) (fun c => ?_) (fun c s t same => ?_)
    · split
      · exact Computes.pure _
      · exact ih hrest (fun part hp => h part (List.mem_cons_of_mem _ hp)) _
    · split
      · rfl
      · exact product_congr (fun part hp => cell_same (graph.built part (hrest part hp)) same) _

/-- Evaluation with a memo is evaluation without one. -/
theorem memoCell_spec (graph : Graph vars nodes) {f : Factor α} (hf : nodes f) :
    Computes vars nodes f.memoCell f.cell := by
  have built := graph.built f hf
  induction built with
  | @table number scope role values f _ made =>
    obtain ⟨-, rfl⟩ := ofValues_eq_ok.1 made
    intro e _ sound
    refine ⟨e, ?_, .refl _, sound⟩
    rw [memoCell, cell, answer_bind, answer_index]
    cases scope.indexOfSlots e.slots with
    | error err => rfl
    | ok i => simp only [ok_bind]; cases values[i]? <;> rfl
  | @observed number base f evidence hb within made ih =>
    obtain ⟨scope, -, rfl⟩ := observe_eq_ok.1 made
    have hbase : nodes base := graph.closed _ _ hf (.observed (.self base))
    have plain : (observed ⟨number, scope, base.role⟩ base (entriesOn evidence base.scope.ids)).cell =
        fun s => base.cell (s.setAll (entriesOn evidence base.scope.ids)) >>= fun c =>
          pure (c.1, 0) := by
      funext s
      rw [cell]
    rw [memoCell, plain]
    -- the cell of the base is read under the evidence, which is taken back after it
    refine Computes.bind (Computes.under graph.inj (ih hbase) fun e he => ?_)
      (fun c => Computes.pure (c.1, 0)) fun _ _ _ _ => rfl
    obtain ⟨hid, held⟩ := mem_entriesOn.1 he
    obtain ⟨v, hv, e'⟩ := Scope.mem_ids.1 hid
    exact ⟨v, hb.mem_vars v hv, e', within v (hb.mem_vars v hv) e.2 (e' ▸ held)⟩
  | @sum number axis parts f haxis hparts made ih =>
    obtain ⟨scope, -, rfl⟩ := sumOut_eq_ok.1 made
    have inside : ∀ part ∈ parts, nodes part := fun part hp =>
      graph.closed _ _ hf (.sum hp (.self part))
    have term : ∀ (acc : α) (p : Nat), Computes vars nodes
        (do let x ← memoProduct parts 1; return acc + x)
        (fun s => product parts s 1 >>= fun x => pure (acc + x)) := fun acc p =>
      (memoProduct_spec graph inside (fun part hp => ih part hp (inside part hp)) 1).bind
        (fun x => Computes.pure (acc + x)) fun _ _ _ _ => rfl
    -- a summand is read from the positions alone, however the earlier ones have left them represented
    have congr : ∀ (acc : α) (p : Nat) (s t : Slots), s.Same t →
        (product parts s 1 >>= fun x => pure (acc + x)) =
          (product parts t 1 >>= fun x => (pure (acc + x) : Except ModelError α)) :=
      fun acc p s t same => by rw [product_congr fun part hp => cell_same (hparts part hp) same]
    rw [memoCell]
    refine Computes.remember graph hf rfl (Computes.loop graph.inj haxis term congr
      (fun p hp => List.mem_range.1 hp) 0 _) fun s => ?_
    rw [cell]
    rfl
  | @max number axis base f haxis hb made ih =>
    obtain ⟨scope, -, rfl⟩ := maxOut_eq_ok.1 made
    have hbase : nodes base := graph.closed _ _ hf (.max (.self base))
    have term : ∀ (best : Option (α × Nat)) (p : Nat), Computes vars nodes
        (do let c ← memoCell base; return betterCell best c.1 p)
        (fun s => base.cell s >>= fun c => pure (betterCell best c.1 p)) := fun best p =>
      (ih hbase).bind (fun c => Computes.pure (betterCell best c.1 p)) fun _ _ _ _ => rfl
    have congr : ∀ (best : Option (α × Nat)) (p : Nat) (s t : Slots), s.Same t →
        (base.cell s >>= fun c => pure (betterCell best c.1 p)) =
          (base.cell t >>= fun c => (pure (betterCell best c.1 p) : Except ModelError _)) :=
      fun best p s t same => by rw [cell_same hb same]
    rw [memoCell]
    refine Computes.remember graph hf rfl (Computes.loop graph.inj haxis term congr
      (fun p hp => List.mem_range.1 hp) none _) fun s => ?_
    rw [cell]
    rfl

end Factor

end Counsel
