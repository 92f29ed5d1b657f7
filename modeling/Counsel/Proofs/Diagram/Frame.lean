/-
Declarations that differ in their numbers. The names of a declaration are its frame: the variables, what
each table is about and what the utility is over (`Declaration.SameFrame`). Names are resolved without a
look at the numbers, so two declarations of one frame, once they are built, have the same variables in the
same order and utilities over the same variables (`SameFrame.vars_eq`, `SameFrame.utility_scope_eq`).
-/
import Counsel.Proofs.Diagram.Accepted

namespace Counsel

open Outcome

/-- Scopes are their variables. -/
theorem Scope.ext_vars {s t : Scope} (same : s.vars = t.vars) : s = t := by
  cases s
  cases t
  cases same
  rfl

namespace Declaration

variable {α : Type}

/-- The same variables, tables of the same children with the same parents, in any order, and utilities
over the same variables. -/
structure SameFrame (a b : Declaration α) : Prop where
  vars : a.vars = b.vars
  tables : (a.cpts.map fun table => (table.child, table.parents)).Perm
    (b.cpts.map fun table => (table.child, table.parents))
  utilities : a.utilities.map (·.scope) = b.utilities.map (·.scope)

theorem Resolved.ids {decl : Declaration α} {table : ResolvedCpt α} (h : decl.Resolved table) :
    List.Forall₂ (fun name id => ∃ v, decl.resolve name = .ok (id, v)) table.decl.parents table.parents :=
  h.parents.imp fun _ _ ⟨v, hr, _⟩ => ⟨v, hr⟩

/-- A name is resolved in one way. -/
theorem resolved_unique {decl : Declaration α} {names : List String} {ids ids' : List VarId}
    (h : List.Forall₂ (fun name id => ∃ v, decl.resolve name = .ok (id, v)) names ids)
    (k : List.Forall₂ (fun name id => ∃ v, decl.resolve name = .ok (id, v)) names ids') : ids = ids' := by
  refine List.forall₂_eq_eq_eq ▸ forall₂_of_common h k ?_
  rintro name id id' ⟨v, hr⟩ ⟨v', hr'⟩
  cases hr.symm.trans hr'
  rfl

/-- The utility is over the variables that are named. -/
theorem resolveScope_of_buildUtility [Scalar α] {decl : Declaration α} {declared : List Variable}
    {number : Nat} {table : UtilityDecl α} {utility : Factor α}
    (h : decl.buildUtility declared number table = .ok utility) :
    decl.resolveScope declared table.scope = .ok utility.scope := by
  unfold buildUtility at h
  split at h
  next => cases h
  next =>
    obtain ⟨scope, hs, h⟩ := bind_eq_ok.1 h
    obtain ⟨-, rfl⟩ := Factor.ofValues_eq_ok.1 h
    exact hs

namespace SameFrame

variable {a b : Declaration α} (same : a.SameFrame b)
include same

theorem resolve_eq (name : String) : a.resolve name = b.resolve name := by
  rw [resolve, resolve, same.vars]

/-- A table of the one declaration is resolved as a table of the other. -/
theorem exists_resolved {cpts cpts' : List (ResolvedCpt α)} (hc : a.resolveCpts [] a.cpts = .ok cpts)
    (hc' : b.resolveCpts [] b.cpts = .ok cpts') {c : ResolvedCpt α} (hm : c ∈ cpts) :
    ∃ c' ∈ cpts', c'.child = c.child ∧ c'.parents = c.parents := by
  obtain ⟨table, listed, rfl, resolved⟩ := forall₂_right_mem (forall₂_resolveCpts hc) hm
  have framed : (c.decl.child, c.decl.parents) ∈ b.cpts.map fun table => (table.child, table.parents) :=
    same.tables.mem_iff.1 (List.mem_map.2 ⟨_, listed, rfl⟩)
  obtain ⟨table', listed', framed⟩ := List.mem_map.1 framed
  obtain ⟨c', hm', rfl, resolved'⟩ := forall₂_mem (forall₂_resolveCpts hc') listed'
  obtain ⟨child, parents⟩ := Prod.mk.inj framed
  obtain ⟨v, hr, -⟩ := resolved.child
  obtain ⟨v', hr', -⟩ := resolved'.child
  have ids := resolved.ids
  have ids' := resolved'.ids
  simp only [← same.resolve_eq, child, parents] at hr' ids'
  obtain ⟨same_child, -⟩ := Prod.mk.inj (Except.ok.inj (hr'.symm.trans hr))
  exact ⟨c', hm', same_child, resolved_unique ids' ids⟩

/-- A variable has the same parents in both. -/
theorem parents_eq {cpts cpts' : List (ResolvedCpt α)} (hc : a.resolveCpts [] a.cpts = .ok cpts)
    (hc' : b.resolveCpts [] b.cpts = .ok cpts') {v : VariableDecl} {id : VarId} {ids ids' : List VarId}
    (h : a.parentsOf cpts v id = .ok ids) (k : b.parentsOf cpts' v id = .ok ids') : ids = ids' := by
  have distinct := ((resolveCpts_eq_ok (by exact List.nodup_nil)).1 hc').1
  rcases parentsOf_eq_ok.1 h with ⟨chance, c, found, rfl⟩ | ⟨decision, info⟩
  · rcases parentsOf_eq_ok.1 k with ⟨-, c', found', rfl⟩ | ⟨decision, -⟩
    · obtain ⟨c'', hm, child, parents⟩ :=
        same.exists_resolved hc hc' (List.mem_of_find?_eq_some found)
      have named : c.child = id := by simpa using List.find?_some found
      rw [(find?_key distinct).2 ⟨hm, child.trans named⟩] at found'
      cases found'
      exact parents.symm
    · cases chance.symm.trans decision
  · rcases parentsOf_eq_ok.1 k with ⟨chance, -⟩ | ⟨-, info'⟩
    · cases chance.symm.trans decision
    · simp only [← same.resolve_eq] at info'
      exact resolved_unique info info'

variable [Scalar α] {d e : Diagram α} (built : a.build = .ok d) (built' : b.build = .ok e)
include built built'

/-- Built from declarations of one frame, diagrams have the same variables. -/
theorem vars_eq : d.vars = e.vars := by
  obtain ⟨-, cpts, hc, hv, -⟩ := build_eq_ok.1 built
  obtain ⟨-, cpts', hc', hv', -⟩ := build_eq_ok.1 built'
  have made := resolveVariables_eq_ok hv
  have made' := resolveVariables_eq_ok hv'
  rw [← same.vars] at made'
  refine List.forall₂_eq_eq_eq ▸ forall₂_of_common made made' ?_
  rintro ⟨declared, i⟩ ⟨⟩ ⟨⟩ ⟨rfl, rfl, rfl, rfl, parents⟩ ⟨rfl, rfl, rfl, rfl, parents'⟩
  cases same.parents_eq hc hc' parents parents'
  rfl

theorem topological_eq : d.topological = e.topological := by
  obtain ⟨-, _, -, -, sorted, -⟩ := build_eq_ok.1 built
  obtain ⟨-, _, -, -, sorted', -⟩ := build_eq_ok.1 built'
  rw [same.vars_eq built built'] at sorted
  exact Except.ok.inj (sorted.symm.trans sorted')

/-- Built from declarations of one frame, diagrams have utilities over the same variables. -/
theorem utility_scope_eq : d.utility.scope = e.utility.scope := by
  obtain ⟨-, _, -, -, -, table, one, -, made, -⟩ := build_eq_ok.1 built
  obtain ⟨-, _, -, -, -, table', one', -, made', -⟩ := build_eq_ok.1 built'
  have utilities := same.utilities
  rw [theUtility_eq_ok.1 one, theUtility_eq_ok.1 one', List.map_singleton, List.map_singleton,
    List.singleton_inj] at utilities
  have resolved := resolveScope_of_buildUtility made
  have resolved' := resolveScope_of_buildUtility made'
  rw [← utilities, ← same.vars_eq built built', resolveScope] at resolved'
  simp only [← same.resolve_eq] at resolved'
  exact Except.ok.inj (resolved.symm.trans resolved')

end SameFrame

end Declaration

end Counsel
