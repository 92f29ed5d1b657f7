/-
The arcs of a declaration by name. Where no name is declared twice a name and the id that it resolves to
say the same (`resolve_eq_ok_iff`), so the parents of a variable are those that its table or its
information set names (`mem_parentNames`), and the variables can be sorted if the names have no cycle
(`exists_sortVariables`).
-/
import Counsel.Proofs.Diagram.Acyclic
import Counsel.Proofs.Diagram.Build

namespace Counsel.Declaration

open Outcome

variable {α : Type} {decl : Declaration α}

/-! ## Names -/

/-- The parents of a name: those of the tables of this child, and what decisions of this name observe. -/
def parentNames (decl : Declaration α) (name : String) : List String :=
  (decl.cpts.filter (·.child = name)).flatMap (·.parents) ++
    (decl.vars.filter fun v => v.name = name ∧ v.kind = .decision).flatMap (·.info)

theorem mem_parentNames_iff {name p : String} : p ∈ decl.parentNames name ↔
    (∃ table ∈ decl.cpts, table.child = name ∧ p ∈ table.parents) ∨
      ∃ v ∈ decl.vars, v.name = name ∧ v.kind = .decision ∧ p ∈ v.info := by
  simp [parentNames, List.mem_flatMap, and_assoc]

/-- Exactly the declared names are resolved. -/
theorem exists_resolve_iff {name : String} :
    (∃ id v, decl.resolve name = .ok (id, v)) ↔ ∃ v ∈ decl.vars, v.name = name := by
  constructor
  · rintro ⟨id, v, hr⟩
    obtain ⟨at_id, named⟩ := resolve_eq_ok hr
    exact ⟨v, List.mem_of_getElem? at_id, named⟩
  · rintro ⟨v, hv, named⟩
    obtain ⟨i, hi⟩ := List.mem_iff_getElem?.1 hv
    unfold resolve
    split
    next u j _ => exact ⟨⟨j⟩, u, rfl⟩
    next unknown =>
      have entry : (v, i) ∈ decl.vars.zipIdx := List.mk_mem_zipIdx_iff_getElem?.2 hi
      exact absurd (beq_iff_eq.2 named) (List.find?_eq_none.1 unknown _ entry)

/-- A name is resolved to the place where it is declared. -/
theorem resolve_eq_ok_iff (named : (decl.vars.map (·.name)).Nodup) {name : String} {id : VarId}
    {v : VariableDecl} :
    decl.resolve name = .ok (id, v) ↔ decl.vars[id.index]? = some v ∧ v.name = name := by
  refine ⟨resolve_eq_ok, fun ⟨at_id, same⟩ => ?_⟩
  obtain ⟨other, u, hr⟩ := exists_resolve_iff.2 ⟨v, List.mem_of_getElem? at_id, same⟩
  obtain ⟨at_other, same'⟩ := resolve_eq_ok hr
  have places : other.index = id.index := by
    have lt : other.index < (decl.vars.map (·.name)).length := by
      rw [List.length_map]
      exact (List.getElem?_eq_some_iff.1 at_other).1
    refine (List.getElem?_inj lt named).1 ?_
    rw [List.getElem?_map, List.getElem?_map, at_other, at_id, Option.map_some, Option.map_some, same, same']
  obtain rfl : other = id := congrArg VarId.mk places
  rw [hr, Option.some.inj (at_other.symm.trans at_id)]

/-- A declared chance variable. -/
def IsChance (decl : Declaration α) (name : String) : Prop :=
  ∃ v ∈ decl.vars, v.name = name ∧ v.kind = .chance

theorem exists_resolve_chance_iff (named : (decl.vars.map (·.name)).Nodup) {name : String} :
    (∃ id v, decl.resolve name = .ok (id, v) ∧ v.kind = .chance) ↔ decl.IsChance name := by
  constructor
  · rintro ⟨id, v, hr, chance⟩
    obtain ⟨at_id, same⟩ := resolve_eq_ok hr
    exact ⟨v, List.mem_of_getElem? at_id, same, chance⟩
  · rintro ⟨v, hv, same, chance⟩
    obtain ⟨i, hi⟩ := List.mem_iff_getElem?.1 hv
    exact ⟨⟨i⟩, v, (resolve_eq_ok_iff named).2 ⟨hi, same⟩, chance⟩

/-- A table is resolved exactly if its names are those of chance variables. -/
theorem exists_resolved_iff (named : (decl.vars.map (·.name)).Nodup) {table : CptDecl α} :
    (∃ c, c.decl = table ∧ decl.Resolved c) ↔
      decl.IsChance table.child ∧ ∀ name ∈ table.parents, decl.IsChance name := by
  constructor
  · rintro ⟨c, rfl, resolved⟩
    refine ⟨(exists_resolve_chance_iff named).1 ⟨_, resolved.child⟩, fun name hn => ?_⟩
    obtain ⟨id, -, hr⟩ := forall₂_mem resolved.parents hn
    exact (exists_resolve_chance_iff named).1 ⟨id, hr⟩
  · rintro ⟨child, parents⟩
    obtain ⟨id, hr⟩ := (exists_resolve_chance_iff named).2 child
    obtain ⟨ids, hp⟩ := exists_forall₂ fun name hn =>
      (exists_resolve_chance_iff named).2 (parents name hn)
    exact ⟨⟨id, ids, table⟩, rfl, hr, hp⟩

/-- The tables are resolved exactly if each can be and no two have one child. -/
theorem exists_resolveCpts_iff (named : (decl.vars.map (·.name)).Nodup) :
    (∃ cpts, decl.resolveCpts [] decl.cpts = .ok cpts) ↔ (decl.cpts.map (·.child)).Nodup ∧
      ∀ table ∈ decl.cpts, decl.IsChance table.child ∧ ∀ name ∈ table.parents, decl.IsChance name := by
  constructor
  · rintro ⟨cpts, hc⟩
    obtain ⟨distinct, more, rfl, resolved⟩ := (resolveCpts_eq_ok (by exact List.nodup_nil)).1 hc
    refine ⟨?_, fun table ht => ?_⟩
    · refine forall₂_nodup resolved.flip (fun c _ c' _ k k' same => ?_) distinct
      obtain ⟨w, hr, -⟩ := k.2.child
      obtain ⟨w', hr', -⟩ := k'.2.child
      rw [k.1, same, ← k'.1, hr'] at hr
      exact (congrArg Prod.fst (Except.ok.inj hr)).symm
    · obtain ⟨c, -, k⟩ := forall₂_mem resolved ht
      exact (exists_resolved_iff named).1 ⟨c, k⟩
  · rintro ⟨single, known⟩
    obtain ⟨cpts, resolved⟩ := exists_forall₂ fun table ht => (exists_resolved_iff named).2 (known table ht)
    refine ⟨cpts, (resolveCpts_eq_ok (by exact List.nodup_nil)).2 ⟨?_, cpts, rfl, resolved⟩⟩
    refine forall₂_nodup resolved (fun table c table' c' k k' same => ?_) single
    obtain ⟨w, hr, -⟩ := k.2.child
    obtain ⟨w', hr', -⟩ := k'.2.child
    obtain ⟨at_id, hn⟩ := resolve_eq_ok hr
    obtain ⟨at_id', hn'⟩ := resolve_eq_ok hr'
    rw [← same, at_id] at at_id'
    cases at_id'
    rw [← k.1, ← k'.1, ← hn, hn']

/-! ## Variables -/

variable {cpts : List (ResolvedCpt α)} {vars : List Variable}

/-- What has the name of a variable is that variable. -/
theorem eq_of_name (named : (decl.vars.map (·.name)).Nodup)
    (hv : decl.resolveVariables cpts = .ok vars) {u v : Variable} (hu : u ∈ vars) (hm : v ∈ vars)
    (same : u.name = v.name) : u = v :=
  List.inj_on_of_nodup_map (names_eq hv ▸ named) hu hm same

/-- What has the id of a variable is that variable. -/
theorem eq_of_id (hv : decl.resolveVariables cpts = .ok vars) {u v : Variable} (hu : u ∈ vars)
    (hm : v ∈ vars) (same : u.id = v.id) : u = v := by
  obtain ⟨i, hi⟩ := List.mem_iff_getElem?.1 hu
  obtain ⟨j, hj⟩ := List.mem_iff_getElem?.1 hm
  rw [numbered_of_resolveVariables hv i u hi, numbered_of_resolveVariables hv j v hj] at same
  cases same
  exact Option.some.inj (hi.symm.trans hj)

/-- A name is resolved to the id of the variable of that name. -/
theorem resolve_of_mem (named : (decl.vars.map (·.name)).Nodup)
    (hv : decl.resolveVariables cpts = .ok vars) {v : Variable} (hm : v ∈ vars) :
    ∃ e, decl.resolve v.name = .ok (v.id, e) ∧ e.kind = v.kind ∧ e.domain = v.domain := by
  obtain ⟨i, hi⟩ := List.mem_iff_getElem?.1 hm
  obtain ⟨e, he, hid, hn, hk, hd, -⟩ := declaration_at hv hi
  exact ⟨e, (resolve_eq_ok_iff named).2 ⟨hid ▸ he, hn.symm⟩, hk.symm, hd.symm⟩

/-- Names and the ids that they resolve to belong to the same variables. -/
theorem mem_names_iff (hv : decl.resolveVariables cpts = .ok vars) {names : List String} {ids : List VarId}
    (resolved : List.Forall₂ (fun name id => ∃ e, decl.resolve name = .ok (id, e)) names ids)
    {p : String} : p ∈ names ↔ ∃ u ∈ vars, u.name = p ∧ u.id ∈ ids := by
  constructor
  · intro hp
    obtain ⟨id, hid, e, hr⟩ := forall₂_mem resolved hp
    obtain ⟨u, hu, rfl, rfl, -⟩ := resolved_at hv hr
    exact ⟨u, List.mem_of_getElem? hu, rfl, hid⟩
  · rintro ⟨u, hu, rfl, hid⟩
    obtain ⟨name, hn, e, hr⟩ := forall₂_right_mem resolved hid
    obtain ⟨v, hm, same, rfl, -⟩ := resolved_at hv hr
    exact eq_of_id hv (List.mem_of_getElem? hm) hu same ▸ hn

/-! ## Tables -/

variable (hc : decl.resolveCpts [] decl.cpts = .ok cpts)
include hc

theorem forall₂_resolveCpts :
    List.Forall₂ (fun table c => c.decl = table ∧ decl.Resolved c) decl.cpts cpts := by
  obtain ⟨-, more, rfl, resolved⟩ := (resolveCpts_eq_ok (by exact List.nodup_nil)).1 hc
  exact resolved

/-- The table of a variable is the one declared for its name. -/
theorem find?_child (named : (decl.vars.map (·.name)).Nodup)
    (hv : decl.resolveVariables cpts = .ok vars) {v : Variable} (hm : v ∈ vars) {c : ResolvedCpt α} :
    cpts.find? (·.child == v.id) = some c ↔ c ∈ cpts ∧ c.decl.child = v.name := by
  rw [find?_key ((resolveCpts_eq_ok (by exact List.nodup_nil)).1 hc).1]
  refine and_congr_right fun mem => ?_
  obtain ⟨e, hr, -⟩ := (resolved_of_resolveCpts hc c mem).child
  obtain ⟨u, hu, hid, hn, -⟩ := resolved_at hv hr
  have hu := List.mem_of_getElem? hu
  rw [← hid, ← hn]
  exact ⟨fun same => congrArg _ (eq_of_id hv hu hm same),
    fun same => congrArg _ (eq_of_name named hv hu hm same)⟩

/-- The variables have parents exactly if each chance variable has a table and each decision observes
declared variables. -/
theorem exists_resolveVariables_iff (named : (decl.vars.map (·.name)).Nodup) :
    (∃ vars, decl.resolveVariables cpts = .ok vars) ↔
      (∀ v ∈ decl.vars, v.kind = .chance → ∃ table ∈ decl.cpts, table.child = v.name) ∧
      ∀ v ∈ decl.vars, v.kind = .decision → ∀ name ∈ v.info, ∃ u ∈ decl.vars, u.name = name := by
  constructor
  · rintro ⟨vars, hv⟩
    refine ⟨fun e he chance => ?_, fun e he decision name observes => ?_⟩
    all_goals
      obtain ⟨i, hi⟩ := List.mem_iff_getElem?.1 he
      obtain ⟨v, hm, hid, hn, -, -, parents⟩ := declared_at hv hi
    · rcases parentsOf_eq_ok.1 parents with ⟨-, c, found, -⟩ | ⟨decision, -⟩
      · rw [← hid] at found
        obtain ⟨mem, child⟩ := (find?_child hc named hv (List.mem_of_getElem? hm)).1 found
        obtain ⟨table, ht, rfl, -⟩ := forall₂_right_mem (forall₂_resolveCpts hc) mem
        exact ⟨_, ht, child.trans hn⟩
      · rw [chance] at decision
        cases decision
    · rcases parentsOf_eq_ok.1 parents with ⟨chance, -⟩ | ⟨-, info⟩
      · rw [chance] at decision
        cases decision
      · obtain ⟨p, -, hr⟩ := forall₂_mem info observes
        exact exists_resolve_iff.1 ⟨p, hr⟩
  · rintro ⟨tabled, observed⟩
    refine exists_mapM fun ⟨e, i⟩ mem => ?_
    have hi := List.mk_mem_zipIdx_iff_getElem?.1 mem
    have he := List.mem_of_getElem? hi
    suffices ∃ parents, decl.parentsOf cpts e ⟨i⟩ = .ok parents by
      obtain ⟨parents, hp⟩ := this
      exact ⟨_, bind_eq_ok.2 ⟨parents, hp, rfl⟩⟩
    cases kind : e.kind with
    | chance =>
      obtain ⟨table, ht, child⟩ := tabled e he kind
      obtain ⟨c, mem, rfl, resolved⟩ := forall₂_mem (forall₂_resolveCpts hc) ht
      obtain ⟨w, hr, -⟩ := resolved.child
      -- the table declared for the name is found under the id, as the name is declared here only
      have same : decl.resolve c.decl.child = .ok (⟨i⟩, e) :=
        (resolve_eq_ok_iff named).2 ⟨hi, child.symm⟩
      have place : c.child = ⟨i⟩ := congrArg Prod.fst (Except.ok.inj (hr.symm.trans same))
      rw [← place]
      have found : (cpts.find? (·.child == c.child)).isSome = true :=
        List.find?_isSome.2 ⟨c, mem, beq_self_eq_true _⟩
      obtain ⟨other, found⟩ := Option.isSome_iff_exists.1 found
      exact ⟨_, parentsOf_eq_ok.2 (.inl ⟨kind, other, found, rfl⟩)⟩
    | decision =>
      obtain ⟨ids, info⟩ := exists_forall₂ fun name hn => exists_resolve_iff.2 (observed e he kind name hn)
      exact ⟨ids, parentsOf_eq_ok.2 (.inr ⟨kind, info⟩)⟩

/-- The parents of a variable are the variables that the declaration names as parents. -/
theorem mem_parentNames (named : (decl.vars.map (·.name)).Nodup)
    (hv : decl.resolveVariables cpts = .ok vars) {v : Variable} (hm : v ∈ vars) {p : String} :
    p ∈ decl.parentNames v.name ↔ ∃ u ∈ vars, u.name = p ∧ u.id ∈ v.parents := by
  obtain ⟨i, hi⟩ := List.mem_iff_getElem?.1 hm
  obtain ⟨e, he, hid, hn, -, -, parents⟩ := declaration_at hv hi
  rw [mem_parentNames_iff]
  have own : ∀ e' ∈ decl.vars, e'.name = v.name → e' = e := fun e' he' same =>
    List.inj_on_of_nodup_map named he' (List.mem_of_getElem? he) (same.trans hn)
  rcases parentsOf_eq_ok.1 parents with ⟨chance, c, found, same⟩ | ⟨decision, info⟩
  · rw [← hid] at found
    obtain ⟨mem, child⟩ := (find?_child hc named hv hm).1 found
    have table := resolved_of_resolveCpts hc c mem
    rw [same, ← mem_names_iff hv (table.parents.imp fun _ _ k => k.imp fun _ hw => hw.1)]
    constructor
    -- a chance variable has this table only, and is no decision
    · rintro (⟨_, ht, child', hp⟩ | ⟨e', he', same', decision, -⟩)
      · obtain ⟨c', mem', rfl, -⟩ := forall₂_mem (forall₂_resolveCpts hc) ht
        have found' := (find?_child hc named hv hm).2 ⟨mem', child'⟩
        rwa [Option.some.inj (found'.symm.trans found)] at hp
      · rw [own e' he' same', chance] at decision
        cases decision
    · intro hp
      obtain ⟨_, ht, rfl, -⟩ := forall₂_right_mem (forall₂_resolveCpts hc) mem
      exact .inl ⟨c.decl, ht, child, hp⟩
  · rw [← mem_names_iff hv info]
    constructor
    -- a decision has no table, as tables are for chance variables
    · rintro (⟨_, ht, child, -⟩ | ⟨e', he', same, -, hp⟩)
      · obtain ⟨c, mem, rfl, table⟩ := forall₂_mem (forall₂_resolveCpts hc) ht
        obtain ⟨w, hr, chance⟩ := table.child
        obtain ⟨at_child, same⟩ := resolve_eq_ok hr
        rw [own w (List.mem_of_getElem? at_child) (same.trans child), decision] at chance
        cases chance
      · exact own e' he' same ▸ hp
    · exact fun hp => .inr ⟨e, List.mem_of_getElem? he, hn.symm, decision, hp⟩

/-! ## Places -/

/-- Arcs between places are arcs between the names of the variables that stand there. -/
theorem names_of_places (named : (decl.vars.map (·.name)).Nodup)
    (hv : decl.resolveVariables cpts = .ok vars) {n p : Nat}
    (hp : p ∈ Topological.parentsAt (parentPlaces vars) n) :
    ∃ v u, vars[n]? = some v ∧ vars[p]? = some u ∧ u.name ∈ decl.parentNames v.name := by
  obtain ⟨v, hn, arc⟩ := mem_parentIds.1 (mem_parentPlaces.1 hp)
  have hm := List.mem_of_getElem? hn
  obtain ⟨u, hu, hid, -⟩ := parents_at hv (resolved_of_resolveCpts hc) hm arc
  obtain ⟨i, hi⟩ := List.mem_iff_getElem?.1 hu
  have place := numbered_of_resolveVariables hv i u hi
  rw [hid] at place
  cases place
  exact ⟨v, u, hn, hi, (mem_parentNames hc named hv hm).2 ⟨u, hu, rfl, hid ▸ arc⟩⟩

/-- Arcs between names are arcs between the places of the variables that have them. -/
theorem places_of_names (named : (decl.vars.map (·.name)).Nodup)
    (hv : decl.resolveVariables cpts = .ok vars) {name other : String}
    (hp : other ∈ decl.parentNames name) :
    ∃ n p v u, vars[n]? = some v ∧ v.name = name ∧ vars[p]? = some u ∧ u.name = other ∧
      p ∈ Topological.parentsAt (parentPlaces vars) n := by
  have declared : ∃ v ∈ vars, v.name = name := by
    rw [← List.mem_map, names_eq hv, List.mem_map]
    rcases mem_parentNames_iff.1 hp with ⟨table, ht, rfl, -⟩ | ⟨v, hm, same, -⟩
    · obtain ⟨v, hm, same, -⟩ := (((exists_resolveCpts_iff named).1 ⟨cpts, hc⟩).2 table ht).1
      exact ⟨v, hm, same⟩
    · exact ⟨v, hm, same⟩
  obtain ⟨v, hm, rfl⟩ := declared
  obtain ⟨u, hu, rfl, arc⟩ := (mem_parentNames hc named hv hm).1 hp
  obtain ⟨n, hn⟩ := List.mem_iff_getElem?.1 hm
  obtain ⟨p, hp⟩ := List.mem_iff_getElem?.1 hu
  rw [numbered_of_resolveVariables hv p u hp] at arc
  exact ⟨n, p, v, u, hn, rfl, hp, rfl, mem_parentPlaces.2 (mem_parentIds.2 ⟨v, hn, arc⟩)⟩

theorem parentPlaces_lt (named : (decl.vars.map (·.name)).Nodup)
    (hv : decl.resolveVariables cpts = .ok vars) (n : Nat) :
    ∀ p ∈ Topological.parentsAt (parentPlaces vars) n, p < (parentPlaces vars).length := by
  intro p hp
  obtain ⟨-, u, -, hu, -⟩ := names_of_places hc named hv hp
  rw [parentPlaces, List.length_map]
  exact (List.getElem?_eq_some_iff.1 hu).1

/-- The variables can be sorted if the names have no cycle. -/
theorem exists_sortVariables (named : (decl.vars.map (·.name)).Nodup)
    (hv : decl.resolveVariables cpts = .ok vars) (acyclic : Topological.Acyclic decl.parentNames) :
    ∃ order, sortVariables vars = .ok order := by
  obtain ⟨order, sorted⟩ := (Topological.exists_sort_iff (parentPlaces_lt hc named hv)).2
    (acyclic.of_map (fun n => (vars[n]?).elim "" (·.name)) fun n p hp => by
      obtain ⟨v, u, hn, hu, arc⟩ := names_of_places hc named hv hp
      rw [hn, hu]
      exact arc)
  exact ⟨_, sortVariables_eq_ok_iff.2 ⟨order, sorted, rfl⟩⟩

end Counsel.Declaration
