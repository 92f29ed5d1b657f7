/-
Diagrams that are well formed: ids are places, names differ, domains are not empty, chance variables
have chance parents and one table over the parents and themselves, and the variables are listed with
parents first. In such a diagram ids and names find their variables (`byId?_eq_some`,
`lookup_eq_ok`), and the tables are those of the chance variables in turn (`conditionals`).
-/
import Counsel.Proofs.Diagram.Topological
import Counsel.Proofs.Factor.Cell
import Counsel.Diagram.Basic

namespace Counsel

open Outcome

namespace Diagram

variable {α : Type} [Scalar α]

/-- A conditional table of a variable: over its parents and, last, itself, without negative entries. -/
def Conditional (d : Diagram α) (v : Variable) (f : Factor α) : Prop :=
  ∃ number scope values, Factor.ofValues number scope (.probability v.id) values = .ok f ∧
    scope.vars = d.pick v.parents ++ [v] ∧ ∀ x ∈ values, Scalar.isFinite x = true ∧ ¬ x < 0

/-- What is kept as the table of a variable: one for a chance variable, none for a decision. -/
def Tabled (d : Diagram α) (v : Variable) (table : Option (Factor α)) : Prop :=
  match v.kind with
  | .chance => ∃ f, table = some f ∧ d.Conditional v f
  | .decision => table = none

/-- What building a diagram checks and what inference relies on. -/
structure WellFormed (d : Diagram α) : Prop where
  numbered : ∀ (i : Nat) (v : Variable), d.vars[i]? = some v → v.id = ⟨i⟩
  named : (d.vars.map (·.name)).Nodup
  domains : ∀ v ∈ d.vars, v.domain ≠ [] ∧ v.domain.Nodup
  parents : ∀ v ∈ d.vars, ∀ p ∈ v.parents, ∃ u ∈ d.vars, u.id = p ∧
    (v.kind = .chance → u.kind = .chance)
  tables : List.Forall₂ d.Tabled d.vars d.cpts
  utility : ∃ number scope values, Factor.ofValues number scope .utility values = .ok d.utility ∧
    ∀ v ∈ scope.vars, v ∈ d.vars
  listed : d.topological.Perm (d.vars.map (·.id))
  parentsFirst : Topological.ParentsFirst d.parentsOf d.topological


/-- The chance variables, in the order of their ids. -/
def chanceVars (d : Diagram α) : List Variable := d.vars.filter (!·.isDecision)

theorem isDecision_iff {v : Variable} : v.isDecision = true ↔ v.kind = .decision := by
  rw [Variable.isDecision, beq_iff_eq]

theorem isDecision_eq_false {v : Variable} : v.isDecision = false ↔ v.kind = .chance := by
  cases h : v.kind <;> simp [Variable.isDecision, h]

omit [Scalar α] in
theorem mem_chanceVars {d : Diagram α} {v : Variable} :
    v ∈ d.chanceVars ↔ v ∈ d.vars ∧ v.kind = .chance := by
  rw [chanceVars, List.mem_filter, Bool.not_eq_true', isDecision_eq_false]

namespace WellFormed

variable {d : Diagram α} (h : d.WellFormed)
include h

/-! ## Variables -/

theorem byId?_eq_some {id : VarId} {v : Variable} :
    d.byId? id = some v ↔ v ∈ d.vars ∧ v.id = id := by
  constructor
  · exact fun hv => ⟨List.mem_of_getElem? hv, h.numbered _ v hv⟩
  · rintro ⟨hv, rfl⟩
    obtain ⟨i, hi⟩ := List.mem_iff_getElem?.1 hv
    rw [byId?, h.numbered i v hi]
    exact hi

theorem inj : ∀ u ∈ d.vars, ∀ v ∈ d.vars, u.id = v.id → u = v := by
  intro u hu v hv e
  have hb := h.byId?_eq_some.2 ⟨hu, rfl⟩
  rw [h.byId?_eq_some.2 ⟨hv, e.symm⟩] at hb
  exact (Option.some.inj hb).symm

theorem card_pos {v : Variable} (hv : v ∈ d.vars) : 0 < v.card :=
  List.length_pos_iff.2 (h.domains v hv).1

theorem nodup_vars : d.vars.Nodup := h.named.of_map _

/-- Some variables of a diagram have names of their own. -/
theorem nodup_names {some_vars : List Variable} (nodup : some_vars.Nodup)
    (sub : ∀ v ∈ some_vars, v ∈ d.vars) : (some_vars.map (·.name)).Nodup :=
  nodup.map_on fun u hu v hv e => List.inj_on_of_nodup_map h.named (sub u hu) (sub v hv) e

theorem nodup_ids : (d.vars.map (·.id)).Nodup :=
  (List.nodup_map_iff_inj_on h.nodup_vars).2 h.inj

theorem mem_pick {ids : List VarId} {v : Variable} : v ∈ d.pick ids ↔ v ∈ d.vars ∧ v.id ∈ ids := by
  rw [pick, List.mem_filterMap]
  constructor
  · rintro ⟨id, hid, hv⟩
    obtain ⟨hm, rfl⟩ := h.byId?_eq_some.1 hv
    exact ⟨hm, hid⟩
  · rintro ⟨hv, hid⟩
    exact ⟨v.id, hid, h.byId?_eq_some.2 ⟨hv, rfl⟩⟩

theorem map_id_pick {ids : List VarId} (known : ∀ id ∈ ids, ∃ v ∈ d.vars, v.id = id) :
    (d.pick ids).map (·.id) = ids := by
  rw [pick, List.map_filterMap]
  refine (List.filterMap_congr fun id hid => ?_).trans List.filterMap_some
  obtain ⟨v, hv, rfl⟩ := known id hid
  rw [h.byId?_eq_some.2 ⟨hv, rfl⟩]
  rfl

theorem parentsOf_eq {v : Variable} (hv : v ∈ d.vars) : d.parentsOf v.id = v.parents := by
  rw [parentsOf, h.byId?_eq_some.2 ⟨hv, rfl⟩]
  rfl

theorem lookup_eq_ok {name : String} {v : Variable} :
    d.lookup name = .ok v ↔ v ∈ d.vars ∧ v.name = name := by
  unfold lookup
  constructor
  · intro hl
    split at hl
    next u found =>
      cases hl
      exact ⟨List.mem_of_find?_eq_some found, by simpa using List.find?_some found⟩
    next => cases hl
  · rintro ⟨hv, rfl⟩
    rw [(find?_key h.named).2 ⟨hv, rfl⟩]

/-! ## Orders -/

theorem mem_topological {id : VarId} : id ∈ d.topological ↔ ∃ v ∈ d.vars, v.id = id := by
  rw [h.listed.mem_iff, List.mem_map]

theorem nodup_topological : d.topological.Nodup := h.listed.nodup_iff.2 h.nodup_ids

theorem mem_orderOf {kind : Kind} {id : VarId} :
    id ∈ d.orderOf kind ↔ ∃ v ∈ d.vars, v.id = id ∧ v.kind = kind := by
  rw [orderOf, List.mem_filter, h.mem_topological]
  constructor
  · rintro ⟨⟨v, hv, rfl⟩, hk⟩
    rw [h.byId?_eq_some.2 ⟨hv, rfl⟩, Option.any_some, beq_iff_eq] at hk
    exact ⟨v, hv, rfl, hk⟩
  · rintro ⟨v, hv, rfl, hk⟩
    rw [h.byId?_eq_some.2 ⟨hv, rfl⟩, Option.any_some, beq_iff_eq]
    exact ⟨⟨v, hv, rfl⟩, hk⟩

theorem nodup_orderOf (kind : Kind) : (d.orderOf kind).Nodup := h.nodup_topological.filter _

/-! ## Tables -/

/-- The tables are those of the chance variables, in turn. -/
theorem conditionals : List.Forall₂ d.Conditional d.chanceVars d.probabilityFactors := by
  have split : ∀ {vars tables}, List.Forall₂ d.Tabled vars tables →
      List.Forall₂ d.Conditional (vars.filter (!·.isDecision)) (tables.filterMap id) := by
    intro vars tables hall
    induction hall with
    | nil => exact .nil
    | @cons v table _ _ head _ ih =>
      unfold Tabled at head
      split at head
      next chance =>
        obtain ⟨f, rfl, hf⟩ := head
        rw [List.filter_cons_of_pos (by rw [isDecision_eq_false.2 chance]; rfl),
          List.filterMap_cons_some (f := id) rfl]
        exact .cons hf ih
      next decision =>
        rw [head, List.filter_cons_of_neg (by rw [isDecision_iff.2 decision]; decide),
          List.filterMap_cons_none rfl]
        exact ih
  exact split h.tables

theorem tabled {v : Variable} (hv : v ∈ d.vars) : d.Tabled v (d.cpt? v.id) := by
  obtain ⟨i, hi⟩ := List.mem_iff_getElem?.1 hv
  obtain ⟨table, ht, tabled⟩ := Outcome.forall₂_getElem? h.tables hi
  rw [cpt?, h.numbered i v hi, ht]
  exact tabled

/-- The tables are found under the ids of the variables. -/
theorem cpts_eq : d.cpts = d.vars.map fun v => d.cpt? v.id := by
  have length := h.tables.length_eq
  refine List.ext_getElem (by simp [length]) fun i hi hj => ?_
  rw [List.length_map] at hj
  rw [List.getElem_map, cpt?, h.numbered i d.vars[i] (List.getElem?_eq_getElem hj),
    List.getElem?_eq_getElem hi]
  rfl

/-- Exactly the chance variables have tables. -/
theorem cpt?_isSome {v : Variable} (hv : v ∈ d.vars) :
    (d.cpt? v.id).isSome = true ↔ v.kind = .chance := by
  have tabled := h.tabled hv
  unfold Tabled at tabled
  split at tabled
  next chance =>
    obtain ⟨f, hf, -⟩ := tabled
    simp [hf, chance]
  next decision => simp [tabled, decision]

/-- A table is made over variables of the diagram. -/
theorem built_conditional {v : Variable} (hv : v ∈ d.vars) {f : Factor α} (hf : d.Conditional v f) :
    Factor.Built d.vars f ∧ ∃ head values, f = .table head values := by
  obtain ⟨number, scope, values, made, vars, -⟩ := hf
  refine ⟨.table (fun u hu => ?_) made, _, _, (Factor.ofValues_eq_ok.1 made).2⟩
  rw [vars, List.mem_append, List.mem_singleton] at hu
  rcases hu with hu | rfl
  · exact (h.mem_pick.1 hu).1
  · exact hv

theorem built_utility : Factor.Built d.vars d.utility ∧ ∃ head values, d.utility = .table head values := by
  obtain ⟨number, scope, values, made, within⟩ := h.utility
  exact ⟨.table within made, _, _, (Factor.ofValues_eq_ok.1 made).2⟩

theorem carriesUtility_utility : d.utility.carriesUtility = true := by
  obtain ⟨number, scope, values, made, -⟩ := h.utility
  rw [(Factor.ofValues_eq_ok.1 made).2]
  rfl

end WellFormed

/-- The table of a variable depends on its parents and itself. -/
theorem Conditional.mem_ids {d : Diagram α} (h : d.WellFormed) {v : Variable} (hv : v ∈ d.vars)
    {f : Factor α} (hf : d.Conditional v f) {id : VarId} :
    id ∈ f.scope.ids ↔ id ∈ v.parents ∨ id = v.id := by
  obtain ⟨number, scope, values, made, vars, -⟩ := hf
  obtain ⟨-, rfl⟩ := Factor.ofValues_eq_ok.1 made
  rw [Factor.scope_table, Scope.ids, vars, List.map_append, List.mem_append, List.mem_map]
  refine or_congr ⟨?_, fun hp => ?_⟩ List.mem_singleton
  · rintro ⟨u, hu, rfl⟩
    exact (h.mem_pick.1 hu).2
  · obtain ⟨u, hu, rfl, -⟩ := h.parents v hv id hp
    exact ⟨u, h.mem_pick.2 ⟨hu, hp⟩, rfl⟩

theorem exists_conditional {d : Diagram α} (h : d.WellFormed) {v : Variable} (hv : v ∈ d.chanceVars) :
    ∃ f ∈ d.probabilityFactors, d.cpt? v.id = some f ∧ d.Conditional v f := by
  obtain ⟨hv, chance⟩ := mem_chanceVars.1 hv
  have tabled := h.tabled hv
  rw [Tabled, chance] at tabled
  obtain ⟨f, hf, cond⟩ := tabled
  refine ⟨f, ?_, hf, cond⟩
  rw [probabilityFactors, h.cpts_eq]
  exact List.mem_filterMap.2 ⟨some f, List.mem_map.2 ⟨v, hv, hf⟩, rfl⟩

/-- What is found as the table of a variable is a conditional table of it. -/
theorem conditional_of_cpt? {d : Diagram α} (h : d.WellFormed) {v : Variable} (hv : v ∈ d.vars)
    {f : Factor α} (made : d.cpt? v.id = some f) :
    v.kind = .chance ∧ f ∈ d.probabilityFactors ∧ d.Conditional v f := by
  have chance := (h.cpt?_isSome hv).1 (Option.isSome_iff_exists.2 ⟨f, made⟩)
  obtain ⟨g, mem, found, cond⟩ := exists_conditional h (mem_chanceVars.2 ⟨hv, chance⟩)
  cases made.symm.trans found
  exact ⟨chance, mem, cond⟩

theorem exists_cpt?_eq {d : Diagram α} (h : d.WellFormed) {f : Factor α}
    (hf : f ∈ d.probabilityFactors) : ∃ v ∈ d.vars, d.cpt? v.id = some f := by
  rw [probabilityFactors, h.cpts_eq] at hf
  simpa using hf

theorem child?_conditional {d : Diagram α} {v : Variable} {f : Factor α} (hf : d.Conditional v f) :
    f.child? = some v.id := by
  obtain ⟨number, scope, values, made, -⟩ := hf
  rw [(Factor.ofValues_eq_ok.1 made).2]
  rfl

end Diagram

end Counsel
