/-
Declarations that build. Each check of a build establishes a part of what makes a diagram well formed:
names and domains (`checkVariables_eq_ok`), arcs (`parents_at`), the order (`sortVariables_eq_ok`) and
the tables (`buildCpts_eq_ok`). A declaration that builds gives a well-formed diagram
(`wellFormed_of_build`).
-/
import Counsel.Proofs.Diagram.WellFormed
import Counsel.Diagram.Declaration

namespace Counsel

open Outcome

namespace Declaration

variable {α : Type}

/-! ## Names and arcs -/

theorem repeatedValue?_eq_none {seen values : List Value} :
    repeatedValue? seen values = none ↔ values.Nodup ∧ ∀ v ∈ values, v ∉ seen := by
  induction values generalizing seen with
  | nil => simp [repeatedValue?]
  | cons v rest ih =>
    rw [repeatedValue?, List.nodup_cons]
    split
    next h => simp [h]
    next h =>
      rw [ih]
      simp only [List.mem_cons, not_or, forall_eq_or_imp]
      constructor
      · rintro ⟨nodup, fresh⟩
        exact ⟨⟨fun hv => (fresh v hv).1 rfl, nodup⟩, h, fun u hu => (fresh u hu).2⟩
      · rintro ⟨⟨hv, nodup⟩, -, fresh⟩
        exact ⟨nodup, fun u hu => ⟨fun e => hv (e ▸ hu), fresh u hu⟩⟩

/-- Declared variables pass exactly if they have distinct names and proper domains. -/
theorem checkVariables_eq_ok {seen : List String} {vars : List VariableDecl} :
    checkVariables seen vars = .ok () ↔ (vars.map (·.name)).Nodup ∧ (∀ v ∈ vars, v.name ∉ seen) ∧
      ∀ v ∈ vars, v.domain ≠ [] ∧ v.domain.Nodup := by
  induction vars generalizing seen with
  | nil => simp [checkVariables]
  | cons v rest ih =>
    unfold checkVariables
    split
    next known => exact ⟨fun h => (nomatch h), fun h => absurd known (h.2.1 v List.mem_cons_self)⟩
    next fresh =>
      split
      next empty => exact ⟨fun h => (nomatch h), fun h => absurd empty (h.2.2 v List.mem_cons_self).1⟩
      next filled =>
        split
        next repeated =>
          refine ⟨fun h => (nomatch h), fun h => ?_⟩
          rw [repeatedValue?_eq_none.2 ⟨(h.2.2 v List.mem_cons_self).2, by simp⟩] at repeated
          cases repeated
        next distinct =>
          rw [ih, List.map_cons, List.nodup_cons]
          constructor
          · rintro ⟨nodup, unseen, domains⟩
            refine ⟨⟨fun hm => ?_, nodup⟩, ?_, ?_⟩
            · obtain ⟨u, hu, e⟩ := List.mem_map.1 hm
              exact unseen u hu (e ▸ List.mem_cons_self)
            · exact List.forall_mem_cons.2
                ⟨fresh, fun u hu hs => unseen u hu (List.mem_cons_of_mem _ hs)⟩
            · exact List.forall_mem_cons.2
                ⟨⟨filled, (repeatedValue?_eq_none.1 distinct).1⟩, domains⟩
          · rintro ⟨⟨other, nodup⟩, unseen, domains⟩
            refine ⟨nodup, fun u hu hs => ?_, fun u hu => domains u (List.mem_cons_of_mem _ hu)⟩
            rcases List.mem_cons.1 hs with same | hs
            · exact other (same ▸ List.mem_map_of_mem hu)
            · exact unseen u (List.mem_cons_of_mem _ hu) hs

theorem resolve_eq_ok {decl : Declaration α} {name : String} {id : VarId} {v : VariableDecl}
    (h : decl.resolve name = .ok (id, v)) : decl.vars[id.index]? = some v ∧ v.name = name := by
  unfold resolve at h
  split at h
  next u i found =>
    cases h
    have named := List.find?_some found
    exact ⟨List.mk_mem_zipIdx_iff_getElem?.1 (List.mem_of_find?_eq_some found),
      beq_iff_eq.1 named⟩
  next => cases h

/-- The ids of a declared table are those of its names: a chance variable with its chance parents. -/
structure Resolved (decl : Declaration α) (table : ResolvedCpt α) : Prop where
  child : ∃ v, decl.resolve table.decl.child = .ok (table.child, v) ∧ v.kind = .chance
  parents : List.Forall₂ (fun name id => ∃ v, decl.resolve name = .ok (id, v) ∧ v.kind = .chance)
    table.decl.parents table.parents

theorem resolveParent_eq_ok {decl : Declaration α} {child name : String} {id : VarId} :
    decl.resolveParent child name = .ok id ↔
      ∃ v, decl.resolve name = .ok (id, v) ∧ v.kind = .chance := by
  unfold resolveParent
  constructor
  · intro h
    obtain ⟨⟨other, v⟩, hr, h⟩ := bind_eq_ok.1 h
    simp only at h
    split at h
    next => cases h
    next chance =>
      cases h
      refine ⟨v, hr, ?_⟩
      cases k : v.kind with
      | chance => rfl
      | decision => exact absurd k chance
  · rintro ⟨v, hr, chance⟩
    rw [hr, ok_bind]
    simp only [chance, reduceCtorEq, if_false]
    rfl

/-- Tables are resolved exactly if each can be, to another chance variable than those before it. -/
theorem resolveCpts_eq_ok {decl : Declaration α} {done : List (ResolvedCpt α)}
    {tables : List (CptDecl α)} {cpts : List (ResolvedCpt α)} (nodup : (done.map (·.child)).Nodup) :
    decl.resolveCpts done tables = .ok cpts ↔ (cpts.map (·.child)).Nodup ∧ ∃ more, cpts = done ++ more ∧
      List.Forall₂ (fun table c => c.decl = table ∧ decl.Resolved c) tables more := by
  induction tables generalizing done with
  | nil =>
    rw [resolveCpts, Except.ok.injEq]
    constructor
    · rintro rfl
      exact ⟨nodup, [], (List.append_nil _).symm, .nil⟩
    · rintro ⟨-, more, rfl, ⟨⟩⟩
      exact (List.append_nil _).symm
  | cons table rest ih =>
    unfold resolveCpts
    constructor
    · intro h
      obtain ⟨⟨child, v⟩, hc, h⟩ := bind_eq_ok.1 h
      simp only at h
      split at h
      next => cases h
      next chance =>
        split at h
        next => cases h
        next fresh =>
          obtain ⟨parents, hp, h⟩ := bind_eq_ok.1 h
          -- the check that has passed carries the hypothesis over to the rest
          have other : ((done ++ [(⟨child, parents, table⟩ : ResolvedCpt α)]).map (·.child)).Nodup := by
            simp only [List.any_eq_true, beq_iff_eq, not_exists, not_and] at fresh
            rw [List.map_append, List.nodup_append]
            refine ⟨nodup, List.nodup_singleton _, fun a ha b hb e => ?_⟩
            obtain ⟨c, hc, rfl⟩ := List.mem_map.1 ha
            exact fresh c hc (e.trans (List.mem_singleton.1 hb))
          obtain ⟨distinct, more, rfl, resolved⟩ := (ih other).1 h
          refine ⟨distinct, _, List.append_assoc .., .cons ⟨rfl, ⟨v, hc, not_not.1 chance⟩, ?_⟩ resolved⟩
          exact (mapM_eq_ok.1 hp).imp fun _ _ => resolveParent_eq_ok.1
    · rintro ⟨distinct, added, rfl, in_step⟩
      obtain ⟨c, more, ⟨rfl, ⟨v, hc, chance⟩, parents⟩, resolved, rfl⟩ :=
        List.forall₂_cons_left_iff.1 in_step
      have split : done ++ c :: more = (done ++ [c]) ++ more := by simp
      rw [split] at distinct
      have fresh : ¬ done.any (·.child == c.child) = true := by
        rw [List.append_assoc, List.map_append, List.nodup_append] at distinct
        simp only [List.any_eq_true, beq_iff_eq, not_exists, not_and]
        exact fun b hb e => distinct.2.2 _ (List.mem_map_of_mem hb) c.child
          (List.mem_map_of_mem (List.mem_cons_self ..)) e
      rw [hc, ok_bind]
      simp only [chance, ne_eq, not_true_eq_false, if_false, fresh]
      rw [mapM_eq_ok.2 (parents.imp fun _ _ => resolveParent_eq_ok.2)]
      refine (ih ?_).2 ⟨split ▸ distinct, more, split, resolved⟩
      rw [List.map_append] at distinct
      exact distinct.sublist (List.sublist_append_left ..)

theorem resolved_of_resolveCpts {decl : Declaration α} {cpts : List (ResolvedCpt α)}
    (h : decl.resolveCpts [] decl.cpts = .ok cpts) : ∀ c ∈ cpts, decl.Resolved c := by
  obtain ⟨-, more, rfl, resolved⟩ := (resolveCpts_eq_ok (by exact List.nodup_nil)).1 h
  intro c hc
  obtain ⟨table, -, -, resolved⟩ := forall₂_right_mem resolved hc
  exact resolved

theorem parentsOf_eq_ok {decl : Declaration α} {cpts : List (ResolvedCpt α)} {v : VariableDecl}
    {id : VarId} {parents : List VarId} : decl.parentsOf cpts v id = .ok parents ↔
      (v.kind = .chance ∧ ∃ c, cpts.find? (·.child == id) = some c ∧ parents = c.parents) ∨
      (v.kind = .decision ∧
        List.Forall₂ (fun name p => ∃ u, decl.resolve name = .ok (p, u)) v.info parents) := by
  unfold parentsOf
  constructor
  · intro h
    split at h
    next chance =>
      split at h
      next c found => cases h; exact .inl ⟨chance, c, found, rfl⟩
      next => cases h
    next decision =>
      refine .inr ⟨decision, (mapM_eq_ok.1 h).imp fun name p hp => ?_⟩
      obtain ⟨⟨q, u⟩, hr, hp⟩ := bind_eq_ok.1 hp
      cases hp
      exact ⟨u, hr⟩
  · rintro (⟨chance, c, found, rfl⟩ | ⟨decision, info⟩)
    · simp only [chance, found]
    · simp only [decision]
      refine mapM_eq_ok.2 (info.imp fun name p hp => ?_)
      obtain ⟨u, hr⟩ := hp
      rw [hr]
      rfl

/-- The variables of a declaration in step with what is declared. -/
theorem resolveVariables_eq_ok {decl : Declaration α} {cpts : List (ResolvedCpt α)}
    {vars : List Variable} (h : decl.resolveVariables cpts = .ok vars) :
    List.Forall₂ (fun e v => v.id = ⟨e.2⟩ ∧ v.name = e.1.name ∧ v.kind = e.1.kind ∧
      v.domain = e.1.domain ∧ decl.parentsOf cpts e.1 ⟨e.2⟩ = .ok v.parents) decl.vars.zipIdx vars := by
  refine (mapM_eq_ok.1 h).imp fun e v hv => ?_
  obtain ⟨parents, hp, hv⟩ := bind_eq_ok.1 hv
  cases hv
  exact ⟨rfl, rfl, rfl, rfl, hp⟩

/-- A declared variable and the variable made of it, at one place. -/
theorem declared_at {decl : Declaration α} {cpts : List (ResolvedCpt α)} {vars : List Variable}
    (h : decl.resolveVariables cpts = .ok vars) {i : Nat} {e : VariableDecl}
    (he : decl.vars[i]? = some e) : ∃ v, vars[i]? = some v ∧ v.id = ⟨i⟩ ∧ v.name = e.name ∧
      v.kind = e.kind ∧ v.domain = e.domain ∧ decl.parentsOf cpts e ⟨i⟩ = .ok v.parents := by
  have hz : decl.vars.zipIdx[i]? = some (e, i) := by
    rw [List.getElem?_zipIdx, he]
    simp
  obtain ⟨v, hv, made⟩ := forall₂_getElem? (resolveVariables_eq_ok h) hz
  exact ⟨v, hv, made⟩

theorem declaration_at {decl : Declaration α} {cpts : List (ResolvedCpt α)} {vars : List Variable}
    (h : decl.resolveVariables cpts = .ok vars) {i : Nat} {v : Variable} (hv : vars[i]? = some v) :
    ∃ e, decl.vars[i]? = some e ∧ v.id = ⟨i⟩ ∧ v.name = e.name ∧ v.kind = e.kind ∧
      v.domain = e.domain ∧ decl.parentsOf cpts e ⟨i⟩ = .ok v.parents := by
  obtain ⟨⟨e, j⟩, he, made⟩ := forall₂_right_getElem? (resolveVariables_eq_ok h) hv
  rw [List.getElem?_zipIdx, Option.map_eq_some_iff] at he
  obtain ⟨e', he, k⟩ := he
  cases k
  rw [Nat.zero_add] at made
  exact ⟨e, he, made⟩

/-- The id of a variable is its place. -/
theorem numbered_of_resolveVariables {decl : Declaration α} {cpts : List (ResolvedCpt α)}
    {vars : List Variable} (h : decl.resolveVariables cpts = .ok vars) (i : Nat) (v : Variable)
    (hi : vars[i]? = some v) : v.id = ⟨i⟩ :=
  (declaration_at h hi).elim fun _ he => he.2.1

/-- A resolved name is that of a variable. -/
theorem resolved_at {decl : Declaration α} {cpts : List (ResolvedCpt α)} {vars : List Variable}
    (h : decl.resolveVariables cpts = .ok vars) {name : String} {id : VarId} {e : VariableDecl}
    (hr : decl.resolve name = .ok (id, e)) :
    ∃ v, vars[id.index]? = some v ∧ v.id = id ∧ v.name = name ∧ v.kind = e.kind := by
  obtain ⟨at_id, named⟩ := resolve_eq_ok hr
  obtain ⟨v, hv, hid, hn, hk, -⟩ := declared_at h at_id
  exact ⟨v, hv, hid, hn.trans named, hk⟩

/-- The arcs of the variables lead to variables, those of chance variables to chance variables. -/
theorem parents_at {decl : Declaration α} {cpts : List (ResolvedCpt α)} {vars : List Variable}
    (h : decl.resolveVariables cpts = .ok vars) (resolved : ∀ c ∈ cpts, decl.Resolved c)
    {v : Variable} (hv : v ∈ vars) {p : VarId} (hp : p ∈ v.parents) :
    ∃ u ∈ vars, u.id = p ∧ (v.kind = .chance → u.kind = .chance) := by
  obtain ⟨i, hi⟩ := List.mem_iff_getElem?.1 hv
  obtain ⟨e, -, -, -, hk, -, parents⟩ := declaration_at h hi
  rcases parentsOf_eq_ok.1 parents with ⟨-, c, found, k⟩ | ⟨decision, info⟩
  · rw [k] at hp
    obtain ⟨j, hj⟩ := List.mem_iff_getElem?.1 hp
    obtain ⟨name, -, w, hw, chance⟩ :=
      forall₂_right_getElem? (resolved c (List.mem_of_find?_eq_some found)).parents hj
    obtain ⟨u, hu, hid, -, hk'⟩ := resolved_at h hw
    exact ⟨u, List.mem_of_getElem? hu, hid, fun _ => hk'.trans chance⟩
  · obtain ⟨j, hj⟩ := List.mem_iff_getElem?.1 hp
    obtain ⟨name, -, w, hw⟩ := forall₂_right_getElem? info hj
    obtain ⟨u, hu, hid, -⟩ := resolved_at h hw
    exact ⟨u, List.mem_of_getElem? hu, hid, fun chance => by rw [hk, decision] at chance; cases chance⟩

theorem names_eq {decl : Declaration α} {cpts : List (ResolvedCpt α)} {vars : List Variable}
    (h : decl.resolveVariables cpts = .ok vars) : vars.map (·.name) = decl.vars.map (·.name) := by
  apply List.ext_getElem?
  intro i
  rw [List.getElem?_map, List.getElem?_map]
  cases hi : vars[i]? with
  | some v =>
    obtain ⟨e, he, -, hn, -⟩ := declaration_at h hi
    rw [he, Option.map_some, Option.map_some, hn]
  | none =>
    cases hj : decl.vars[i]? with
    | none => rfl
    | some e =>
      obtain ⟨v, hv, -⟩ := declared_at h hj
      rw [hi] at hv
      cases hv

/-- Variables numbered by their places have the numbers below their count as ids. -/
theorem ids_eq_range {vars : List Variable}
    (numbered : ∀ (i : Nat) (v : Variable), vars[i]? = some v → v.id = ⟨i⟩) :
    vars.map (·.id) = (List.range vars.length).map fun i => (⟨i⟩ : VarId) := by
  apply List.ext_getElem?
  intro i
  rw [List.getElem?_map, List.getElem?_map]
  by_cases lt : i < vars.length
  · rw [List.getElem?_range lt, List.getElem?_eq_getElem lt, Option.map_some, Option.map_some,
      numbered i vars[i] (List.getElem?_eq_getElem lt)]
  · rw [List.getElem?_eq_none (by omega), List.getElem?_eq_none (by simpa using lt)]
    rfl

/-- The parents of an id, where the ids are the places of variables. -/
def parentIds (vars : List Variable) (id : VarId) : List VarId :=
  (vars[id.index]?).elim [] (·.parents)

/-- The places of the parents of each variable. -/
def parentPlaces (vars : List Variable) : List (List Nat) :=
  vars.map fun v => v.parents.map (·.index)

theorem mem_parentIds {vars : List Variable} {id p : VarId} :
    p ∈ parentIds vars id ↔ ∃ v, vars[id.index]? = some v ∧ p ∈ v.parents := by
  unfold parentIds
  cases vars[id.index]? <;> simp

theorem mem_parentPlaces {vars : List Variable} {n p : Nat} :
    p ∈ Topological.parentsAt (parentPlaces vars) n ↔ ⟨p⟩ ∈ parentIds vars ⟨n⟩ := by
  rw [Topological.parentsAt, parentPlaces, List.getElem?_map, mem_parentIds]
  cases vars[n]? with
  | none => simp
  | some v =>
    rw [Option.map_some, Option.getD_some, List.mem_map]
    constructor
    · rintro ⟨id, hid, rfl⟩
      exact ⟨v, rfl, hid⟩
    · rintro ⟨_, ⟨⟩, hp⟩
      exact ⟨_, hp, rfl⟩

theorem sortVariables_eq_ok_iff {vars : List Variable} {order : List VarId} :
    sortVariables vars = .ok order ↔
      ∃ places, Topological.sort (parentPlaces vars) = .ok places ∧ order = places.map VarId.mk := by
  unfold sortVariables
  rw [← parentPlaces]
  cases Topological.sort (parentPlaces vars) with
  | ok places => simp [eq_comm]
  | error n => simp

/-- A sort of the variables lists them all, parents first. -/
theorem sortVariables_eq_ok {vars : List Variable} {order : List VarId}
    (numbered : ∀ (i : Nat) (v : Variable), vars[i]? = some v → v.id = ⟨i⟩)
    (h : sortVariables vars = .ok order) :
    order.Perm (vars.map (·.id)) ∧ Topological.ParentsFirst (parentIds vars) order := by
  obtain ⟨places, sorted, rfl⟩ := sortVariables_eq_ok_iff.1 h
  obtain ⟨perm, first⟩ := Topological.sort_eq_ok sorted
  rw [parentPlaces, List.length_map] at perm
  constructor
  · rw [ids_eq_range numbered]
    exact perm.map _
  · exact first.map fun n q hq => ⟨q.index, mem_parentPlaces.2 hq, rfl⟩

/-! ## Tables -/

/-- The variables of a resolved list of names. -/
theorem scopeVars_eq {decl : Declaration α} {d : Diagram α} {names : List String}
    {ids : List VarId} {scope : Scope} (h : decl.resolveScope d.vars names = .ok scope)
    (resolved : List.Forall₂ (fun name id => ∃ e, decl.resolve name = .ok (id, e)) names ids) :
    scope.vars = d.pick ids := by
  obtain ⟨vars, hv, hs⟩ := bind_eq_ok.1 h
  rw [Scope.ofVars_eq_ok hs]
  rw [mapM_eq_ok] at hv
  clear h hs
  induction resolved generalizing vars with
  | nil => cases hv; rfl
  | @cons name id names ids head _ ih =>
    obtain ⟨v, rest, hn, hrest, rfl⟩ := List.forall₂_cons_left_iff.1 hv
    obtain ⟨e, he⟩ := head
    obtain ⟨⟨other, e'⟩, hr, hn⟩ := bind_eq_ok.1 hn
    rw [he] at hr
    cases hr
    simp only at hn
    split at hn
    next u hu =>
      cases hn
      rw [ih rest hrest, Diagram.pick, Diagram.pick, List.filterMap_cons, Diagram.byId?, hu]
    next => cases hn

theorem mem_of_resolveScope {decl : Declaration α} {declared : List Variable}
    {names : List String} {scope : Scope} (h : decl.resolveScope declared names = .ok scope) :
    ∀ v ∈ scope.vars, v ∈ declared := by
  obtain ⟨vars, hv, hs⟩ := bind_eq_ok.1 h
  rw [Scope.ofVars_eq_ok hs]
  intro v hv'
  obtain ⟨i, hi⟩ := List.mem_iff_getElem?.1 hv'
  obtain ⟨name, -, hn⟩ := forall₂_right_getElem? (mapM_eq_ok.1 hv) hi
  obtain ⟨⟨id, e⟩, -, hn⟩ := bind_eq_ok.1 hn
  simp only at hn
  split at hn
  next u hu => cases hn; exact List.mem_of_getElem? hu
  next => cases hn

variable [Scalar α]

/-- A sum that is one up to the tolerance. -/
def NearOne (sum : α) : Prop := ¬ sum - 1 > rowTolerance ∧ ¬ 1 - sum > rowTolerance

omit [Scalar α] in
/-- A row of a table whose rows have a given width. -/
def rowOf (width : Nat) (values : List α) (k : Nat) : List α := (values.drop (k * width)).take width

theorem badRow?_eq_none {width row count : Nat} {values : List α} :
    badRow? width row values count = none ↔
      ∀ k < count, NearOne (Scalar.total (rowOf width values k)) := by
  induction count generalizing row values with
  | zero => exact ⟨fun _ k hk => absurd hk (Nat.not_lt_zero k), fun _ => rfl⟩
  | succ count ih =>
    have later : ∀ k, rowOf width (values.drop width) k = rowOf width values (k + 1) := fun k => by
      rw [rowOf, rowOf, List.drop_drop, Nat.succ_mul, Nat.add_comm]
    have first : rowOf width values 0 = values.take width := by
      rw [rowOf, Nat.zero_mul, List.drop_zero]
    have bounds : (∀ k < count + 1, NearOne (Scalar.total (rowOf width values k))) ↔
        NearOne (Scalar.total (values.take width)) ∧
          ∀ k < count, NearOne (Scalar.total (rowOf width (values.drop width) k)) := by
      simp only [later]
      rw [← first, Nat.forall_lt_succ_left]
    rw [bounds, badRow?]
    split
    next far =>
      refine ⟨fun h => (nomatch h), fun h => ?_⟩
      simp only [Bool.or_eq_true, decide_eq_true_eq] at far
      exact absurd far (not_or.2 h.1)
    next close =>
      simp only [Bool.or_eq_true, decide_eq_true_eq, not_or] at close
      rw [ih]
      exact ⟨fun h => ⟨close, h⟩, fun h => h.2⟩

/-- A table passes exactly if its entries can be probabilities and, if it falls into rows, each of them
sums to one. -/
theorem checkCpt_eq_ok {child : Variable} {values : List α} : checkCpt child values = .ok () ↔
    (∀ x ∈ values, Scalar.isFinite x = true ∧ ¬ x < 0) ∧ (values.length % child.card = 0 →
      ∀ k < values.length / child.card, NearOne (Scalar.total (rowOf child.card values k))) := by
  have entries : (values.findIdx? fun x => !Scalar.isFinite x || decide (x < 0)) = none ↔
      ∀ x ∈ values, Scalar.isFinite x = true ∧ ¬ x < 0 := by
    rw [List.findIdx?_eq_none_iff]
    simp
  have rows : badRow? child.card 0 values (values.length / child.card) = none ↔ _ := badRow?_eq_none
  rw [← entries, ← rows]
  unfold checkCpt
  split
  next bad => simp [bad]
  next none_bad =>
    simp only [none_bad, true_and]
    split
    next uneven => exact ⟨fun _ even => absurd even uneven, fun _ => rfl⟩
    next even =>
      rw [not_not] at even
      split
      next far => simp [even, far]
      next close => simp [close]

/-- The tables are those of the variables: one for each chance variable, none for a decision. -/
theorem buildCpts_eq_ok {decl : Declaration α} {cpts : List (ResolvedCpt α)} {d : Diagram α}
    (hd : decl.resolveVariables cpts = .ok d.vars) (resolved : ∀ c ∈ cpts, decl.Resolved c)
    {number : Nat} {vars : List Variable} (sub : ∀ v ∈ vars, v ∈ d.vars)
    {tables : List (Option (Factor α))}
    (h : decl.buildCpts d.vars cpts number vars = .ok tables) :
    List.Forall₂ d.Tabled vars tables := by
  induction vars generalizing number tables with
  | nil => cases h; exact .nil
  | cons v rest ih =>
    have hrest : ∀ u ∈ rest, u ∈ d.vars := fun u hu => sub u (List.mem_cons_of_mem _ hu)
    obtain ⟨i, hi⟩ := List.mem_iff_getElem?.1 (sub v List.mem_cons_self)
    obtain ⟨e, -, hid, -, hk, -, parents⟩ := declaration_at hd hi
    rw [← hid] at parents
    unfold buildCpts at h
    split at h
    next missing =>
      obtain ⟨others, ho, h⟩ := bind_eq_ok.1 h
      cases h
      refine .cons ?_ (ih hrest ho)
      rcases parentsOf_eq_ok.1 parents with ⟨-, c, found, -⟩ | ⟨decision, -⟩
      · rw [missing] at found
        cases found
      · rw [Diagram.Tabled, hk, decision]
    next c found =>
      obtain ⟨scope, hs, h⟩ := bind_eq_ok.1 h
      obtain ⟨⟨⟩, checked, h⟩ := bind_eq_ok.1 h
      obtain ⟨f, hf, h⟩ := bind_eq_ok.1 h
      obtain ⟨others, ho, h⟩ := bind_eq_ok.1 h
      cases h
      refine .cons ?_ (ih hrest ho)
      -- the table found for `v` was resolved to a chance variable, and `v` stands at its place
      have table := resolved c (List.mem_of_find?_eq_some found)
      obtain ⟨e', he', chance⟩ := table.child
      have child : c.child = v.id := by simpa using List.find?_some found
      obtain ⟨u, hu, -, -, hku⟩ := resolved_at hd he'
      rw [child, hid] at hu
      cases hi.symm.trans hu
      rw [Diagram.Tabled, hku, chance]
      refine ⟨f, rfl, number, scope, c.decl.values.toArray, hf, ?_, fun x hx => ?_⟩
      · have ids : scope.vars = d.pick (c.parents ++ [c.child]) := by
          refine scopeVars_eq hs (List.rel_append (table.parents.imp ?_) (.cons ⟨e', he'⟩ .nil))
          exact fun name id k => k.imp fun w hw => hw.1
        rcases parentsOf_eq_ok.1 parents with ⟨-, c', found', k⟩ | ⟨decision, -⟩
        · cases found.symm.trans found'
          rw [ids, Diagram.pick, List.filterMap_append, k, child]
          simp [Diagram.byId?, hid, hi, Diagram.pick]
        · rw [← hk, hku, chance] at decision
          cases decision
      · exact (checkCpt_eq_ok.1 checked).1 x (by simpa using hx)

/-- A declaration builds exactly if it passes each check, and what it builds is put together from what the
checks return. -/
theorem build_eq_ok {decl : Declaration α} {d : Diagram α} : decl.build = .ok d ↔
    checkVariables [] decl.vars = .ok () ∧ ∃ cpts, decl.resolveCpts [] decl.cpts = .ok cpts ∧
      decl.resolveVariables cpts = .ok d.vars ∧ sortVariables d.vars = .ok d.topological ∧
      ∃ table, theUtility decl.utilities = .ok table ∧
        decl.buildCpts d.vars cpts 0 d.vars = .ok d.cpts ∧
        decl.buildUtility d.vars cpts.length table = .ok d.utility ∧
        d.tableCount = cpts.length + 1 := by
  unfold build
  constructor
  · intro h
    obtain ⟨⟨⟩, checked, h⟩ := bind_eq_ok.1 h
    obtain ⟨cpts, hc, h⟩ := bind_eq_ok.1 h
    obtain ⟨declared, hv, h⟩ := bind_eq_ok.1 h
    obtain ⟨topological, sorted, h⟩ := bind_eq_ok.1 h
    obtain ⟨table, one, h⟩ := bind_eq_ok.1 h
    obtain ⟨tables, ht, h⟩ := bind_eq_ok.1 h
    obtain ⟨utility, hu, h⟩ := bind_eq_ok.1 h
    cases h
    exact ⟨checked, cpts, hc, hv, sorted, table, one, ht, hu, rfl⟩
  · rintro ⟨checked, cpts, hc, hv, sorted, table, one, ht, hu, count⟩
    simp only [checked, hc, hv, sorted, one, ht, hu, ok_bind, ← count]
    rfl

/-- A declaration that builds gives a well-formed diagram. -/
theorem wellFormed_of_build {decl : Declaration α} {d : Diagram α} (h : decl.build = .ok d) :
    d.WellFormed := by
  obtain ⟨checked, cpts, hc, hv, sorted, table, -, ht, hu, -⟩ := build_eq_ok.1 h
  obtain ⟨named, -, domains⟩ := checkVariables_eq_ok.1 checked
  have resolved := resolved_of_resolveCpts hc
  have numbered := numbered_of_resolveVariables hv
  obtain ⟨listed, first⟩ := sortVariables_eq_ok numbered sorted
  refine ⟨numbered, ?_, fun v hm => ?_, fun v hm p hp => parents_at hv resolved hm hp,
    buildCpts_eq_ok hv resolved (fun _ => id) ht, ?_, listed, first⟩
  · exact names_eq hv ▸ named
  · obtain ⟨i, hi⟩ := List.mem_iff_getElem?.1 hm
    obtain ⟨e, he, -, -, -, hd, -⟩ := declaration_at hv hi
    rw [hd]
    exact domains e (List.mem_of_getElem? he)
  · unfold buildUtility at hu
    split at hu
    next => cases hu
    next =>
      obtain ⟨scope, hs, hu⟩ := bind_eq_ok.1 hu
      exact ⟨_, scope, _, hu, mem_of_resolveScope hs⟩

end Declaration

end Counsel
