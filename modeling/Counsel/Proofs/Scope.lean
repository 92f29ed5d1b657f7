/-
Scopes as sets of variables. A scope lists distinct variables (`Scope.nodup_ids`); a union lists
those of its parts that are not excluded (`mem_union`), and it is formed whenever all variables
together fit (`exists_ofVars`). The index under slots that hold a world is the index of the world's
positions (`indexOfSlots_of_holds`), below the size, and worlds with one index agree on the scope. Where
a variable comes last, the index without it is that of the other positions, times its width
(`indexWithout_last`).
-/
import Counsel.Proofs.MixedRadix
import Counsel.Proofs.Outcome
import Counsel.Proofs.Slots
import Counsel.Diagram.Scope

namespace Counsel.Scope

/-! ## Distinct variables -/

theorem repeated?_eq_none {seen : List VarId} {vars : List Variable} :
    repeated? seen vars = none ↔ (vars.map (·.id)).Nodup ∧ ∀ v ∈ vars, v.id ∉ seen := by
  induction vars generalizing seen with
  | nil => simp [repeated?]
  | cons v rest ih =>
    rw [repeated?, List.map_cons, List.nodup_cons]
    split
    next h => simp [h]
    next h =>
      rw [ih]
      simp only [List.mem_cons, not_or, List.mem_map, not_exists, not_and, forall_eq_or_imp]
      constructor
      · rintro ⟨nodup, fresh⟩
        exact ⟨⟨fun u hu e => (fresh u hu).1 e, nodup⟩, h, fun u hu => (fresh u hu).2⟩
      · rintro ⟨⟨ne, nodup⟩, -, fresh⟩
        exact ⟨nodup, fun u hu => ⟨fun e => ne u hu e, fresh u hu⟩⟩

theorem nodup_ids (scope : Scope) : scope.ids.Nodup := (repeated?_eq_none.1 scope.distinct).1

theorem nodup_vars (scope : Scope) : scope.vars.Nodup := scope.nodup_ids.of_map _

theorem mem_ids {scope : Scope} {id : VarId} : id ∈ scope.ids ↔ ∃ v ∈ scope.vars, v.id = id :=
  List.mem_map

theorem contains_iff {scope : Scope} {id : VarId} : scope.contains id = true ↔ id ∈ scope.ids := by
  rw [contains, List.contains_iff_mem]

theorem ofVars_eq_ok {vars : List Variable} {scope : Scope} (h : ofVars vars = .ok scope) :
    scope.vars = vars := by
  unfold ofVars at h
  split at h
  next => cases h
  next =>
    split at h
    next => cases h; rfl
    next => cases h

theorem ofVars_of_fits {vars : List Variable} (distinct : repeated? [] vars = none)
    (fits : MixedRadix.size (bases vars) < MixedRadix.indexLimit) :
    ofVars vars = .ok ⟨vars, distinct, fits⟩ := by
  unfold ofVars
  split
  next again => exact absurd (again.symm.trans distinct) (by simp)
  next => exact dif_pos fits

theorem ofVars_of_not_fits {vars : List Variable} (distinct : repeated? [] vars = none)
    (large : ¬ MixedRadix.size (bases vars) < MixedRadix.indexLimit) :
    ofVars vars = .error (.scopeTooLarge (vars.map (·.name))) := by
  unfold ofVars
  split
  next again => exact absurd (again.symm.trans distinct) (by simp)
  next => exact dif_neg large

/-- Distinct variables that fit form a scope. -/
theorem exists_ofVars {vars : List Variable} (nodup : (vars.map (·.id)).Nodup)
    (fits : MixedRadix.size (bases vars) < MixedRadix.indexLimit) :
    ∃ scope, ofVars vars = .ok scope :=
  ⟨_, ofVars_of_fits (repeated?_eq_none.2 ⟨nodup, by simp⟩) fits⟩

/-! ## Sizes -/

/-- A part of the variables has at most as many joint positions as all of them. -/
theorem size_le_of_subset {part vars : List Variable} (nodup : part.Nodup) (sub : part ⊆ vars)
    (pos : ∀ v ∈ vars, 0 < v.card) :
    MixedRadix.size (bases part) ≤ MixedRadix.size (bases vars) := by
  obtain ⟨l, perm, sublist⟩ := List.subperm_of_subset nodup sub
  rw [MixedRadix.size_eq_prod, MixedRadix.size_eq_prod, bases, ← (perm.map Variable.card).prod_eq]
  refine (sublist.map Variable.card).prod_le_prod' fun n hn => ?_
  obtain ⟨v, hv, rfl⟩ := List.mem_map.1 hn
  exact pos v hv

/-! ## Unions -/

theorem mem_collect {excluded : List VarId} {acc vars : List Variable} {v : Variable}
    (h : v ∈ collect excluded acc vars) : v ∈ acc ∨ (v ∈ vars ∧ v.id ∉ excluded) := by
  induction vars generalizing acc with
  | nil => exact .inl h
  | cons u rest ih =>
    rw [collect] at h
    split at h
    next => exact (ih h).imp id fun k => ⟨List.mem_cons_of_mem _ k.1, k.2⟩
    next c =>
      simp only [Bool.or_eq_true, List.contains_iff_mem, not_or] at c
      rcases ih h with h | h
      · rcases List.mem_append.1 h with h | h
        · exact .inl h
        · rw [List.mem_singleton] at h
          exact .inr ⟨h ▸ List.mem_cons_self, h ▸ c.1⟩
      · exact .inr ⟨List.mem_cons_of_mem _ h.1, h.2⟩

theorem collect_ids {excluded : List VarId} {acc vars : List Variable} {id : VarId} :
    id ∈ (collect excluded acc vars).map (·.id) ↔
      id ∈ acc.map (·.id) ∨ (id ∈ vars.map (·.id) ∧ id ∉ excluded) := by
  induction vars generalizing acc with
  | nil => simp [collect]
  | cons u rest ih =>
    rw [collect]
    split
    -- a variable that is left out is excluded or collected already
    next c =>
      simp only [Bool.or_eq_true, List.contains_iff_mem, List.any_eq_true, beq_iff_eq] at c
      rw [ih, List.map_cons, List.mem_cons]
      constructor
      · rintro (h | h)
        · exact .inl h
        · exact .inr ⟨.inr h.1, h.2⟩
      · rintro (h | ⟨rfl | h, k⟩)
        · exact .inl h
        · rcases c with c | ⟨w, hw, e⟩
          · exact absurd c k
          · exact .inl (List.mem_map.2 ⟨w, hw, e⟩)
        · exact .inr ⟨h, k⟩
    next c =>
      simp only [Bool.or_eq_true, List.contains_iff_mem, not_or] at c
      rw [ih, List.map_append, List.mem_append, List.map_cons, List.map_nil, List.mem_singleton,
        List.map_cons, List.mem_cons]
      constructor
      · rintro ((h | rfl) | h)
        · exact .inl h
        · exact .inr ⟨.inl rfl, c.1⟩
        · exact .inr ⟨.inr h.1, h.2⟩
      · rintro (h | ⟨h | h, k⟩)
        · exact .inl (.inl h)
        · exact .inl (.inr h)
        · exact .inr ⟨h, k⟩

theorem collect_nodup {excluded : List VarId} {acc vars : List Variable}
    (h : (acc.map (·.id)).Nodup) : ((collect excluded acc vars).map (·.id)).Nodup := by
  induction vars generalizing acc with
  | nil => exact h
  | cons u rest ih =>
    rw [collect]
    split
    next => exact ih h
    next c =>
      simp only [Bool.or_eq_true, List.any_eq_true, beq_iff_eq, not_or, not_exists, not_and] at c
      apply ih
      rw [List.map_append, List.nodup_append]
      refine ⟨h, List.nodup_singleton _, fun a ha b hb e => ?_⟩
      rw [List.map_cons, List.map_nil, List.mem_singleton] at hb
      obtain ⟨w, hw, rfl⟩ := List.mem_map.1 ha
      exact c.2 w hw (e.trans hb)

/-- Every variable of a union is one of a part, and not excluded. -/
theorem mem_union {scopes : List Scope} {excluded : List VarId} {scope : Scope} {v : Variable}
    (h : union scopes excluded = .ok scope) (hv : v ∈ scope.vars) :
    (∃ part ∈ scopes, v ∈ part.vars) ∧ v.id ∉ excluded := by
  rw [ofVars_eq_ok h] at hv
  rcases mem_collect hv with hv | hv
  · cases hv
  · exact ⟨List.mem_flatMap.1 hv.1, hv.2⟩

theorem mem_union_ids {scopes : List Scope} {excluded : List VarId} {scope : Scope} {id : VarId}
    (h : union scopes excluded = .ok scope) :
    id ∈ scope.ids ↔ (∃ part ∈ scopes, id ∈ part.ids) ∧ id ∉ excluded := by
  rw [ids, ofVars_eq_ok h, collect_ids, List.map_nil, List.map_flatMap, List.mem_flatMap]
  exact or_iff_right List.not_mem_nil

/-- A union of scopes is formed where the variables that are not excluded fit together. -/
theorem exists_union {scopes : List Scope} {vars : List Variable} {excluded : List VarId}
    (sub : ∀ part ∈ scopes, ∀ v ∈ part.vars, v.id ∉ excluded → v ∈ vars) (pos : ∀ v ∈ vars, 0 < v.card)
    (fits : MixedRadix.size (bases vars) < MixedRadix.indexLimit) :
    ∃ scope, union scopes excluded = .ok scope := by
  have nodup : ((collect excluded [] (scopes.flatMap (·.vars))).map (·.id)).Nodup :=
    collect_nodup List.nodup_nil
  refine exists_ofVars nodup (lt_of_le_of_lt (size_le_of_subset (nodup.of_map _) ?_ pos) fits)
  intro v hv
  rcases mem_collect hv with hv | hv
  · cases hv
  · obtain ⟨part, hp, inside⟩ := List.mem_flatMap.1 hv.1
    exact sub part hp v inside hv.2

/-- A union of scopes can only be too large. -/
theorem union_error {scopes : List Scope} {excluded : List VarId} {e : ModelError}
    (fails : union scopes excluded = .error e) : ∃ names, e = .scopeTooLarge names := by
  have distinct : repeated? [] (collect excluded [] (scopes.flatMap (·.vars))) = none :=
    repeated?_eq_none.2 ⟨collect_nodup List.nodup_nil, by simp⟩
  rw [union] at fails
  by_cases fits : MixedRadix.size (bases (collect excluded [] (scopes.flatMap (·.vars)))) <
      MixedRadix.indexLimit
  · rw [ofVars_of_fits distinct fits] at fails
    cases fails
  · rw [ofVars_of_not_fits distinct fits] at fails
    cases fails
    exact ⟨_, rfl⟩

theorem mem_without {scope other : Scope} {id : VarId} {v : Variable}
    (h : scope.without id = .ok other) : v ∈ other.vars ↔ v ∈ scope.vars ∧ v.id ≠ id := by
  rw [ofVars_eq_ok h, List.mem_filter, bne_iff_ne]

theorem mem_without_ids {scope other : Scope} {id other_id : VarId}
    (h : scope.without id = .ok other) : other_id ∈ other.ids ↔ other_id ∈ scope.ids ∧ other_id ≠ id := by
  rw [mem_ids, mem_ids]
  constructor
  · rintro ⟨v, hv, rfl⟩
    obtain ⟨hv, ne⟩ := (mem_without h).1 hv
    exact ⟨⟨v, hv, rfl⟩, ne⟩
  · rintro ⟨⟨v, hv, rfl⟩, ne⟩
    exact ⟨v, (mem_without h).2 ⟨hv, ne⟩, rfl⟩

/-- What is left of a scope without one variable is a scope. -/
theorem exists_without (scope : Scope) (id : VarId) (pos : ∀ v ∈ scope.vars, 0 < v.card) :
    ∃ other, scope.without id = .ok other := by
  have sub : scope.vars.filter (·.id != id) ⊆ scope.vars := List.filter_subset_self _
  apply exists_ofVars (scope.nodup_ids.sublist (List.filter_sublist.map _))
  exact lt_of_le_of_lt (size_le_of_subset (scope.nodup_vars.filter _) sub pos) scope.fits

/-! ## Indices -/

/-- The index of a world's positions. -/
def indexAt (scope : Scope) (x : World) : Nat :=
  MixedRadix.encode (bases scope.vars) (scope.vars.map fun v => x v.id)

theorem inRange_map {vars : List Variable} {x : World} (h : x.InRange vars) :
    MixedRadix.InRange (bases vars) (vars.map fun v => x v.id) := by
  induction vars with
  | nil => trivial
  | cons v rest ih =>
    exact ⟨h v List.mem_cons_self, ih fun u hu => h u (List.mem_cons_of_mem _ hu)⟩

theorem indexAt_lt {scope : Scope} {x : World} (h : x.InRange scope.vars) :
    scope.indexAt x < scope.size := MixedRadix.encode_lt (inRange_map h)

theorem indexAt_congr {scope : Scope} {x y : World} (h : ∀ id ∈ scope.ids, x id = y id) :
    scope.indexAt x = scope.indexAt y := by
  unfold indexAt
  rw [List.map_congr_left fun v hv => h v.id (mem_ids.2 ⟨v, hv, rfl⟩)]

theorem indexOfSlots_of_holds {scope : Scope} {slots : Slots} {x : World}
    (h : slots.Holds scope.ids x) : scope.indexOfSlots slots = .ok (scope.indexAt x) := by
  have digits : scope.vars.mapM (heldPosition slots) = .ok (scope.vars.map fun v => x v.id) :=
    Outcome.mapM_eq_ok_map fun v hv => by
      rw [heldPosition, h v.id (mem_ids.2 ⟨v, hv, rfl⟩)]
  rw [indexOfSlots, digits]
  rfl

/-- The index reads nothing but the positions of the scope. -/
theorem indexOfSlots_congr {scope : Scope} {s t : Slots} (h : s.AgreeOn scope.ids t) :
    scope.indexOfSlots s = scope.indexOfSlots t := by
  have digits : scope.vars.mapM (heldPosition s) = scope.vars.mapM (heldPosition t) :=
    Outcome.mapM_congr fun v hv => by rw [heldPosition, heldPosition, h v.id (mem_ids.2 ⟨v, hv, rfl⟩)]
  rw [indexOfSlots, indexOfSlots, digits]

theorem heldPosition_eq_ok {slots : Slots} {v : Variable} {p : Nat} :
    heldPosition slots v = .ok p ↔ slots.get? v.id = some p := by
  unfold heldPosition
  rcases slots.get? v.id with _ | q <;> simp

theorem indexOfSlots_eq_ok {scope : Scope} {slots : Slots} {i : Nat} : scope.indexOfSlots slots = .ok i ↔ ∃ digits,
    List.Forall₂ (fun v p => slots.get? v.id = some p) scope.vars digits ∧
      MixedRadix.encode (bases scope.vars) digits = i := by
  rw [indexOfSlots, Outcome.bind_eq_ok]
  simp only [Outcome.mapM_eq_ok, heldPosition_eq_ok, Outcome.pure_eq_ok, Except.ok.injEq]

/-- Where there is an index, the slots hold their own world on the scope. -/
theorem holds_of_indexOfSlots {scope : Scope} {slots : Slots} {index : Nat}
    (h : scope.indexOfSlots slots = .ok index) : slots.Holds scope.ids slots.world := by
  obtain ⟨digits, read, -⟩ := indexOfSlots_eq_ok.1 h
  intro id hid
  obtain ⟨v, hv, rfl⟩ := mem_ids.1 hid
  obtain ⟨p, -, held⟩ := Outcome.forall₂_mem read hv
  rw [Slots.world, held]
  rfl

/-- Slots in range with one index agree on the scope. -/
theorem agreeOn_of_index_eq {scope : Scope} {s t : Slots} {index : Nat}
    (hs : scope.indexOfSlots s = .ok index) (ht : scope.indexOfSlots t = .ok index)
    (rs : s.Within scope.vars) (rt : t.Within scope.vars) : s.AgreeOn scope.ids t := by
  have ks := holds_of_indexOfSlots hs
  have kt := holds_of_indexOfSlots ht
  have inRange : ∀ {u : Slots}, u.Within scope.vars → u.Holds scope.ids u.world →
      u.world.InRange scope.vars := fun hw hh v hv => hw v hv _ (hh v.id (mem_ids.2 ⟨v, hv, rfl⟩))
  have e : scope.indexAt s.world = scope.indexAt t.world := by
    rw [indexOfSlots_of_holds ks, Except.ok.injEq] at hs
    rw [indexOfSlots_of_holds kt, Except.ok.injEq] at ht
    rw [hs, ht]
  -- the index decodes to the positions it was made of
  have digits := congrArg (MixedRadix.decode (bases scope.vars)) e
  unfold indexAt at digits
  rw [MixedRadix.decode_encode (inRange_map (inRange rs ks)),
    MixedRadix.decode_encode (inRange_map (inRange rt kt)), List.map_inj_left] at digits
  intro id hid
  obtain ⟨v, hv, rfl⟩ := mem_ids.1 hid
  rw [ks v.id hid, kt v.id hid, digits v hv]

theorem index_lt_limit {scope : Scope} {slots : Slots} {index : Nat}
    (h : scope.indexOfSlots slots = .ok index) (within : slots.Within scope.vars) :
    index < MixedRadix.indexLimit := by
  have holds := holds_of_indexOfSlots h
  rw [indexOfSlots_of_holds holds] at h
  cases h
  refine lt_trans (indexAt_lt fun v hv => ?_) scope.fits
  exact within v hv _ (holds v.id (mem_ids.2 ⟨v, hv, rfl⟩))

/-! ## The last variable -/

/-- Variables that are not left out add their positions, each times its stride. -/
theorem foldlM_addHeld {omitted : VarId} (slots : Slots) {vars : List Variable}
    (others : ∀ v ∈ vars, v.id ≠ omitted) {strides : List Nat} (length : vars.length = strides.length)
    (index : Nat) : (vars.zip strides).foldlM (addHeld omitted slots) index =
      (vars.mapM (heldPosition slots)).map fun digits =>
        index + (List.zipWith (· * ·) digits strides).sum := by
  induction vars generalizing strides index with
  | nil => rfl
  | cons v rest ih =>
    cases strides with
    | nil => cases length
    | cons stride strides =>
      have later := fun next => ih (fun u hu => others u (List.mem_cons_of_mem _ hu))
        (Nat.succ.inj length) next
      rw [List.zip_cons_cons, List.foldlM_cons, List.mapM_cons, addHeld,
        if_neg (others v List.mem_cons_self)]
      rcases heldPosition slots v with e | digit
      · rfl
      · simp only [Outcome.ok_bind, Outcome.pure_eq_ok, later]
        rcases rest.mapM (heldPosition slots) with e | digits
        · rfl
        · exact congrArg Except.ok (Nat.add_assoc ..)

section Last

variable {scope : Scope} {others : List Variable} {v : Variable} (vars : scope.vars = others ++ [v])
include vars

theorem ne_last : ∀ u ∈ others, u.id ≠ v.id := by
  intro u hu e
  have nodup := scope.nodup_ids
  rw [ids, vars, List.map_append, List.nodup_append] at nodup
  exact nodup.2.2 u.id (List.mem_map_of_mem hu) v.id (by simp) e

theorem filter_last : scope.vars.filter (·.id != v.id) = others := by
  rw [vars, List.filter_append, List.filter_eq_self.2 fun u hu => bne_iff_ne.2 (ne_last vars u hu)]
  simp

/-- Without the last variable the index is that of the other positions, times its width. -/
theorem indexWithout_last (slots : Slots) : scope.indexWithout v.id slots =
    (others.mapM (heldPosition slots)).map fun digits =>
      MixedRadix.encode (bases others) digits * v.card := by
  have places : scope.vars.zip (MixedRadix.strides (bases scope.vars)) =
      others.zip ((MixedRadix.strides (bases others)).map (· * v.card)) ++ [(v, 1)] := by
    rw [vars, bases, List.map_append, List.map_singleton, MixedRadix.strides_concat,
      List.zip_append (by simp)]
    rfl
  rw [indexWithout, places, List.foldlM_append, foldlM_addHeld slots (ne_last vars) (by simp [bases])]
  rcases others.mapM (heldPosition slots) with e | digits
  · rfl
  · simp only [Except.map, Outcome.ok_bind, List.foldlM_cons, List.foldlM_nil, addHeld, if_pos,
      MixedRadix.sum_zipWith_scaled, ← MixedRadix.encode_eq_sum, Nat.zero_add, Outcome.pure_eq_ok]

end Last

end Counsel.Scope
