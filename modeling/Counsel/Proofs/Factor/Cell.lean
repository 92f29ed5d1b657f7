/-
Cells of factors in worlds. A factor made by the constructions over some variables reads nothing but
the positions of its scope (`cell_congr`). Under slots that hold a world on the scope its cell is
there and is what the world gives (`cell_of_holds`): no index leaves a table and no position is
missing.
-/
import Counsel.Proofs.Scope
import Counsel.Diagram.Factor

namespace Counsel.Factor

variable {α : Type}

/-! ## Constructions -/

/-- The entries that evidence has for some variables. -/
def entriesOn (evidence : Slots) (ids : List VarId) : List (VarId × Nat) :=
  ids.filterMap fun id => (evidence.get? id).map (id, ·)

theorem mem_entriesOn {evidence : Slots} {ids : List VarId} {id : VarId} {position : Nat} :
    (id, position) ∈ entriesOn evidence ids ↔ id ∈ ids ∧ evidence.get? id = some position := by
  simp only [entriesOn, List.mem_filterMap, Option.map_eq_some_iff, Prod.mk.injEq]
  constructor
  · rintro ⟨other, h, _, k, rfl, rfl⟩
    exact ⟨h, k⟩
  · rintro ⟨h, k⟩
    exact ⟨id, h, position, k, rfl, rfl⟩

theorem mem_entriesOn_ids {evidence : Slots} {ids : List VarId} {id : VarId} :
    id ∈ (entriesOn evidence ids).map (·.1) ↔ id ∈ ids ∧ evidence.isAssigned id = true := by
  rw [List.mem_map, Slots.isAssigned_iff]
  constructor
  · rintro ⟨⟨_, position⟩, h, rfl⟩
    exact ⟨(mem_entriesOn.1 h).1, position, (mem_entriesOn.1 h).2⟩
  · rintro ⟨h, position, k⟩
    exact ⟨(id, position), mem_entriesOn.2 ⟨h, k⟩, rfl⟩

theorem nodup_entriesOn {evidence : Slots} {ids : List VarId} (nodup : ids.Nodup) :
    ((entriesOn evidence ids).map (·.1)).Nodup := by
  refine nodup.sublist ?_
  rw [entriesOn, List.map_filterMap]
  have : ids.filterMap ((Option.map Prod.fst) ∘ fun id => (evidence.get? id).map (id, ·)) =
      ids.filter evidence.isAssigned := by
    rw [← List.filterMap_eq_filter]
    apply List.filterMap_congr
    intro id _
    cases h : evidence.get? id <;> simp [Slots.isAssigned, Option.guard, h]
  exact this ▸ List.filter_sublist

@[simp] theorem scope_table (head : FactorHead) (values : Array α) :
    (table head values).scope = head.scope := rfl

@[simp] theorem scope_observed (head : FactorHead) (base : Factor α)
    (evidence : List (VarId × Nat)) : (observed head base evidence).scope = head.scope := rfl

@[simp] theorem scope_sum (head : FactorHead) (axis : Variable) (parts : List (Factor α)) :
    (sum head axis parts).scope = head.scope := rfl

@[simp] theorem scope_max (head : FactorHead) (axis : Variable) (base : Factor α) :
    (max head axis base).scope = head.scope := rfl

theorem ofValues_eq_ok {number : Nat} {scope : Scope} {role : Role} {values : Array α} {f : Factor α} :
    ofValues number scope role values = .ok f ↔
      values.size = scope.size ∧ f = .table ⟨number, scope, role⟩ values := by
  unfold ofValues
  split
  next h => rw [Except.ok.injEq]; exact ⟨fun e => ⟨h, e.symm⟩, fun e => e.2.symm⟩
  next h => exact ⟨fun e => (nomatch e), fun e => absurd e.1 h⟩

theorem observe_eq_ok {number : Nat} {base f : Factor α} {evidence : Slots} :
    observe number base evidence = .ok f ↔
      ∃ scope, Scope.union [base.scope] ((entriesOn evidence base.scope.ids).map (·.1)) = .ok scope ∧
        f = .observed ⟨number, scope, base.role⟩ base (entriesOn evidence base.scope.ids) := by
  refine Outcome.bind_eq_ok.trans (exists_congr fun scope => and_congr_right fun _ => ?_)
  rw [Outcome.pure_eq_ok, Except.ok.injEq]
  exact eq_comm

theorem sumOut_eq_ok {number : Nat} {axis : Variable} {parts : List (Factor α)} {f : Factor α} :
    sumOut number axis parts = .ok f ↔
      ∃ scope, Scope.union (parts.map (·.scope)) [axis.id] = .ok scope ∧
        f = .sum ⟨number, scope, .derived (parts.any carriesUtility)⟩ axis parts := by
  refine Outcome.bind_eq_ok.trans (exists_congr fun scope => and_congr_right fun _ => ?_)
  rw [Outcome.pure_eq_ok, Except.ok.injEq]
  exact eq_comm

theorem maxOut_eq_ok {number : Nat} {axis : Variable} {base f : Factor α} :
    maxOut number axis base = .ok f ↔
      ∃ scope, base.scope.without axis.id = .ok scope ∧
        f = .max ⟨number, scope, .derived base.carriesUtility⟩ axis base := by
  refine Outcome.bind_eq_ok.trans (exists_congr fun scope => and_congr_right fun _ => ?_)
  rw [Outcome.pure_eq_ok, Except.ok.injEq]
  exact eq_comm

/-- The factors that the constructions make over some variables. -/
inductive Built (vars : List Variable) : Factor α → Prop
  | table {number : Nat} {scope : Scope} {role : Role} {values : Array α} {f : Factor α} :
      (∀ v ∈ scope.vars, v ∈ vars) → ofValues number scope role values = .ok f → Built vars f
  | observed {number : Nat} {base f : Factor α} {evidence : Slots} :
      Built vars base → evidence.Within vars → observe number base evidence = .ok f → Built vars f
  | sum {number : Nat} {axis : Variable} {parts : List (Factor α)} {f : Factor α} :
      axis ∈ vars → (∀ part ∈ parts, Built vars part) → sumOut number axis parts = .ok f →
        Built vars f
  | max {number : Nat} {axis : Variable} {base f : Factor α} :
      axis ∈ vars → Built vars base → maxOut number axis base = .ok f → Built vars f

variable {vars : List Variable}

/-! ## Scopes -/

theorem mem_observe_ids {number : Nat} {base f : Factor α} {evidence : Slots}
    (h : observe number base evidence = .ok f) (id : VarId) :
    id ∈ f.scope.ids ↔ id ∈ base.scope.ids ∧ evidence.isAssigned id = false := by
  obtain ⟨scope, hs, rfl⟩ := observe_eq_ok.1 h
  refine (Scope.mem_union_ids hs).trans ?_
  rw [mem_entriesOn_ids]
  simp only [List.mem_singleton, exists_eq_left, not_and, Bool.not_eq_true]
  exact and_congr_right fun k => ⟨fun e => e k, fun e _ => e⟩

theorem mem_sumOut_ids {number : Nat} {axis : Variable} {parts : List (Factor α)} {f : Factor α}
    (h : sumOut number axis parts = .ok f) (id : VarId) :
    id ∈ f.scope.ids ↔ (∃ part ∈ parts, id ∈ part.scope.ids) ∧ id ≠ axis.id := by
  obtain ⟨scope, hs, rfl⟩ := sumOut_eq_ok.1 h
  refine (Scope.mem_union_ids hs).trans ?_
  simp only [List.mem_map, exists_exists_and_eq_and, List.mem_singleton, ne_eq]

theorem mem_maxOut_ids {number : Nat} {axis : Variable} {base f : Factor α}
    (h : maxOut number axis base = .ok f) (id : VarId) :
    id ∈ f.scope.ids ↔ id ∈ base.scope.ids ∧ id ≠ axis.id := by
  obtain ⟨scope, hs, rfl⟩ := maxOut_eq_ok.1 h
  exact Scope.mem_without_ids hs

theorem mem_sumOut_vars {number : Nat} {axis : Variable} {parts : List (Factor α)} {f : Factor α}
    (h : sumOut number axis parts = .ok f) {v : Variable} (hv : v ∈ f.scope.vars) :
    ∃ part ∈ parts, v ∈ part.scope.vars := by
  obtain ⟨scope, hs, rfl⟩ := sumOut_eq_ok.1 h
  obtain ⟨⟨_, hm, hv⟩, -⟩ := Scope.mem_union hs hv
  obtain ⟨part, hp, rfl⟩ := List.mem_map.1 hm
  exact ⟨part, hp, hv⟩

theorem mem_maxOut_vars {number : Nat} {axis : Variable} {base f : Factor α}
    (h : maxOut number axis base = .ok f) {v : Variable} (hv : v ∈ f.scope.vars) :
    v ∈ base.scope.vars := by
  obtain ⟨scope, hs, rfl⟩ := maxOut_eq_ok.1 h
  exact ((Scope.mem_without hs).1 hv).1

theorem carriesUtility_sumOut {number : Nat} {axis : Variable} {parts : List (Factor α)}
    {f : Factor α} (h : sumOut number axis parts = .ok f) :
    f.carriesUtility = parts.any (·.carriesUtility) := by
  obtain ⟨scope, -, rfl⟩ := sumOut_eq_ok.1 h
  rfl

theorem carriesUtility_maxOut {number : Nat} {axis : Variable} {base f : Factor α}
    (h : maxOut number axis base = .ok f) : f.carriesUtility = base.carriesUtility := by
  obtain ⟨scope, -, rfl⟩ := maxOut_eq_ok.1 h
  rfl

theorem Built.mem_vars {f : Factor α} (h : Built vars f) : ∀ v ∈ f.scope.vars, v ∈ vars := by
  induction h with
  | table within made =>
    obtain ⟨-, rfl⟩ := ofValues_eq_ok.1 made
    exact within
  | observed _ _ made ih =>
    obtain ⟨scope, hs, rfl⟩ := observe_eq_ok.1 made
    intro v hv
    obtain ⟨⟨part, hp, hv⟩, -⟩ := Scope.mem_union hs hv
    rw [List.mem_singleton] at hp
    exact ih v (hp ▸ hv)
  | sum _ _ made ih =>
    intro v hv
    obtain ⟨part, hp, hv⟩ := mem_sumOut_vars made hv
    exact ih part hp v hv
  | max _ _ made ih => exact fun v hv => ih v (mem_maxOut_vars made hv)

theorem Built.within {f : Factor α} (h : Built vars f) {slots : Slots} (k : slots.Within vars) :
    slots.Within f.scope.vars := fun v hv => k v (h.mem_vars v hv)

/-! ## Locality -/

variable [Scalar α]

theorem product_congr {parts : List (Factor α)} {s t : Slots}
    (h : ∀ part ∈ parts, part.cell s = part.cell t) (acc : α) :
    product parts s acc = product parts t acc := by
  induction parts generalizing acc with
  | nil => rw [product, product]
  | cons f rest ih =>
    rw [product, product, h f List.mem_cons_self]
    refine congrArg _ (funext fun c => ?_)
    simp only [ih fun part hp => h part (List.mem_cons_of_mem _ hp)]

/-- A factor reads nothing but the positions of its scope. -/
theorem cell_congr {f : Factor α} (h : Built vars f) {s t : Slots}
    (agree : s.AgreeOn f.scope.ids t) : f.cell s = f.cell t := by
  induction h generalizing s t with
  | table within made =>
    obtain ⟨-, rfl⟩ := ofValues_eq_ok.1 made
    have index := Scope.indexOfSlots_congr agree
    rw [scope_table] at index
    rw [cell, cell, index]
  | observed _ _ made ih =>
    have ids := mem_observe_ids made
    obtain ⟨scope, -, rfl⟩ := observe_eq_ok.1 made
    rw [cell, cell, ih (Slots.AgreeOn.setAll fun id hid free => agree id ((ids id).2 ⟨hid, ?_⟩))]
    rw [mem_entriesOn_ids, not_and, Bool.not_eq_true] at free
    exact free hid
  | @sum number axis parts f _ _ made ih =>
    have ids := mem_sumOut_ids made
    obtain ⟨scope, -, rfl⟩ := sumOut_eq_ok.1 made
    have index := Scope.indexOfSlots_congr agree
    rw [scope_sum] at index
    rw [cell, cell, index]
    -- each term sets the axis, so the slots need to agree on the rest of a part's scope only
    refine congrArg _ (funext fun _ => congrArg (· >>= _) (Outcome.foldlM_congr (fun acc p _ => ?_) 0))
    refine congrArg (· >>= _) (product_congr (fun part hp => ih part hp ?_) 1)
    exact Slots.AgreeOn.set fun id hid ne => agree id ((ids id).2 ⟨⟨part, hp, hid⟩, ne⟩)
  | max _ _ made ih =>
    have ids := mem_maxOut_ids made
    obtain ⟨scope, -, rfl⟩ := maxOut_eq_ok.1 made
    have index := Scope.indexOfSlots_congr agree
    rw [scope_max] at index
    rw [cell, cell, index]
    refine congrArg _ (funext fun _ => congrArg (· >>= _) (Outcome.foldlM_congr (fun acc p _ => ?_) none))
    refine congrArg (· >>= _) (ih ?_)
    exact Slots.AgreeOn.set fun id hid ne => agree id ((ids id).2 ⟨hid, ne⟩)

/-! ## Worlds -/

mutual

/-- What a factor holds in a world. -/
def cellIn : Factor α → World → α × Nat
  | .table head values, x => (values[head.scope.indexAt x]?.getD 0, 0)
  | .observed _ base evidence, x => ((base.cellIn (x.setAll evidence)).1, 0)
  | .sum _ axis parts, x =>
    ((List.range axis.card).foldl (fun sum p =>
      sum + productIn parts (Function.update x axis.id p) 1) 0, 0)
  | .max _ axis base, x =>
    ((List.range axis.card).foldl (fun best p =>
      betterCell best (base.cellIn (Function.update x axis.id p)).1 p) none).getD (0, 0)

/-- A number times the values of some factors in a world; zero ends the product. -/
def productIn : List (Factor α) → World → α → α
  | [], _, acc => acc
  | f :: rest, x, acc =>
    let acc := acc * (f.cellIn x).1
    if acc == 0 then acc else productIn rest x acc

end

/-- The value of a factor in a world. -/
def valueIn (f : Factor α) (x : World) : α := (f.cellIn x).1

theorem product_of_cells {parts : List (Factor α)} {slots : Slots} {x : World}
    (h : ∀ part ∈ parts, part.cell slots = .ok (part.cellIn x)) (acc : α) :
    product parts slots acc = .ok (productIn parts x acc) := by
  induction parts generalizing acc with
  | nil => rw [product, productIn]
  | cons f rest ih =>
    rw [product, productIn, h f List.mem_cons_self, Outcome.ok_bind]
    simp only
    split
    · rfl
    · exact ih (fun part hp => h part (List.mem_cons_of_mem _ hp)) _

/-- Under slots that hold a world in range, the cell of a factor is what it holds in the world. -/
theorem cell_of_holds (inj : ∀ u ∈ vars, ∀ v ∈ vars, u.id = v.id → u = v) {f : Factor α}
    (h : Built vars f) {slots : Slots} {x : World} (range : x.InRange vars)
    (holds : slots.Holds f.scope.ids x) : f.cell slots = .ok (f.cellIn x) := by
  induction h generalizing slots x with
  | table within made =>
    obtain ⟨size, rfl⟩ := ofValues_eq_ok.1 made
    have lt := Scope.indexAt_lt fun v hv => range v (within v hv)
    have index := Scope.indexOfSlots_of_holds holds
    rw [scope_table] at index
    rw [cell, index, Outcome.ok_bind, cellIn]
    simp only
    rw [Array.getElem?_eq_getElem (by rw [size]; exact lt)]
    rfl
  | @observed number base f evidence hb within made ih =>
    have ids := mem_observe_ids made
    obtain ⟨scope, -, rfl⟩ := observe_eq_ok.1 made
    -- the base is read in the world with the evidence set, which is in range as well
    have held : (slots.setAll (entriesOn evidence base.scope.ids)).Holds base.scope.ids
        (x.setAll (entriesOn evidence base.scope.ids)) := by
      refine Slots.holds_setAll fun id hid free => holds id ((ids id).2 ⟨hid, ?_⟩)
      rw [mem_entriesOn_ids, not_and, Bool.not_eq_true] at free
      exact free hid
    have range' : (x.setAll (entriesOn evidence base.scope.ids)).InRange vars := by
      intro v hv
      by_cases free : v.id ∈ (entriesOn evidence base.scope.ids).map (·.1)
      · obtain ⟨⟨id, p⟩, he, e⟩ := List.mem_map.1 free
        cases e
        rw [World.setAll_of_mem x (nodup_entriesOn base.scope.nodup_ids) he]
        exact within v hv p (mem_entriesOn.1 he).2
      · rw [World.setAll_of_notMem x free]
        exact range v hv
    rw [cell, ih range' held, cellIn]
    rfl
  | @sum number axis parts f haxis hparts made ih =>
    have ids := mem_sumOut_ids made
    obtain ⟨scope, -, rfl⟩ := sumOut_eq_ok.1 made
    have index := Scope.indexOfSlots_of_holds holds
    rw [scope_sum] at index
    rw [cell, index, Outcome.ok_bind, cellIn,
      Outcome.foldlM_eq_ok (g := fun sum p => sum + productIn parts (Function.update x axis.id p) 1)
        (fun acc p hp => ?_) 0]
    · rfl
    · rw [product_of_cells fun part hpart => ih part hpart
        (range.update inj haxis (List.mem_range.1 hp)) ?_]
      · rfl
      · exact Slots.Holds.set fun id hid ne => holds id ((ids id).2 ⟨⟨part, hpart, hid⟩, ne⟩)
  | @max number axis base f haxis hb made ih =>
    have ids := mem_maxOut_ids made
    obtain ⟨scope, -, rfl⟩ := maxOut_eq_ok.1 made
    have index := Scope.indexOfSlots_of_holds holds
    rw [scope_max] at index
    rw [cell, index, Outcome.ok_bind, cellIn,
      Outcome.foldlM_eq_ok (g := fun best p =>
        betterCell best (base.cellIn (Function.update x axis.id p)).1 p) (fun acc p hp => ?_) none]
    · rfl
    · rw [ih (range.update inj haxis (List.mem_range.1 hp)) ?_]
      · rfl
      · exact Slots.Holds.set fun id hid ne => holds id ((ids id).2 ⟨hid, ne⟩)

theorem productIn_congr {parts : List (Factor α)} {x y : World}
    (h : ∀ part ∈ parts, part.cellIn x = part.cellIn y) (acc : α) :
    productIn parts x acc = productIn parts y acc := by
  induction parts generalizing acc with
  | nil => rw [productIn, productIn]
  | cons f rest ih =>
    rw [productIn, productIn, h f List.mem_cons_self,
      ih fun part hp => h part (List.mem_cons_of_mem _ hp)]

/-- Worlds that agree on the scope of a factor give it the same cell. -/
theorem cellIn_congr {f : Factor α} (h : Built vars f) {x y : World}
    (agree : ∀ id ∈ f.scope.ids, x id = y id) : f.cellIn x = f.cellIn y := by
  induction h generalizing x y with
  | table within made =>
    obtain ⟨-, rfl⟩ := ofValues_eq_ok.1 made
    have index := Scope.indexAt_congr agree
    rw [scope_table] at index
    rw [cellIn, cellIn, index]
  | @observed number base f evidence _ _ made ih =>
    have ids := mem_observe_ids made
    obtain ⟨scope, -, rfl⟩ := observe_eq_ok.1 made
    rw [cellIn, cellIn, ih fun id hid => ?_]
    refine World.setAll_congr fun free => ?_
    rw [mem_entriesOn_ids, not_and, Bool.not_eq_true] at free
    exact agree id ((ids id).2 ⟨hid, free hid⟩)
  | @sum number axis parts f _ _ made ih =>
    have ids := mem_sumOut_ids made
    obtain ⟨scope, -, rfl⟩ := sumOut_eq_ok.1 made
    rw [cellIn, cellIn]
    congr 2
    funext acc p
    rw [productIn_congr fun part hp => ih part hp fun id hid => ?_]
    exact World.update_congr (fun e => agree id ((ids id).2 ⟨⟨part, hp, hid⟩, e⟩)) p
  | @max number axis base f _ _ made ih =>
    have ids := mem_maxOut_ids made
    obtain ⟨scope, -, rfl⟩ := maxOut_eq_ok.1 made
    rw [cellIn, cellIn]
    congr 2
    funext acc p
    rw [ih fun id hid => ?_]
    exact World.update_congr (fun e => agree id ((ids id).2 ⟨hid, e⟩)) p

/-! ## The position of a maximum -/

/-- A better cell is the new one or the one before. -/
theorem betterCell_keeps (kept : Nat → Prop) {best : Option (α × Nat)}
    (h : ∀ c ∈ best, kept c.2) {x : α} {p : Nat} (new : kept p) :
    ∀ c ∈ betterCell best x p, kept c.2 := by
  unfold betterCell
  split
  next => simpa using new
  next b i =>
    split
    · simpa using new
    · exact h

/-- A maximum names a position of its variable. -/
theorem position_lt_of_maxOut {number : Nat} {axis : Variable} {base f : Factor α}
    (made : maxOut number axis base = .ok f) (pos : 0 < axis.card) (x : World) :
    (f.cellIn x).2 < axis.card := by
  obtain ⟨scope, -, rfl⟩ := maxOut_eq_ok.1 made
  rw [cellIn]
  -- the best cell so far is at a position that was tried
  have tried : ∀ c ∈ (List.range axis.card).foldl (fun best p =>
      betterCell best (base.cellIn (Function.update x axis.id p)).1 p) none, c.2 < axis.card := by
    refine List.foldlRecOn (motive := fun best : Option (α × Nat) => ∀ c ∈ best, c.2 < axis.card)
      _ _ (by simp) fun best kept p hp => ?_
    exact betterCell_keeps (· < axis.card) kept (List.mem_range.1 hp)
  cases best : (List.range axis.card).foldl (fun best p =>
      betterCell best (base.cellIn (Function.update x axis.id p)).1 p) none with
  | none => exact pos
  | some c => exact tried c best

end Counsel.Factor
