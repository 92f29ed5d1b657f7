/-
Which declarations build. The checks of a build look at a declaration in pieces, at times through ids that
an earlier check gave out; what they come to is said here of the names alone (`Declaration.WellFormed`).
Each check is an equivalence: a scope is formed (`exists_resolveScope_iff`), conditional tables pass
(`exists_buildCpts_iff`) and the utility table passes (`exists_buildUtility_iff`) exactly if they are as
they should be, so a declaration builds exactly if it is well formed, and then its variables are listed
with parents first (`exists_build_iff`).
-/
import Counsel.Proofs.Diagram.Arcs
import Counsel.Proofs.Inference.Posterior

namespace Counsel

open Outcome

/-- A scope is formed exactly if its variables are distinct and fit. -/
theorem Scope.exists_ofVars_iff {vars : List Variable} : (∃ scope, ofVars vars = .ok scope) ↔
    (vars.map (·.id)).Nodup ∧ MixedRadix.size (bases vars) < MixedRadix.indexLimit := by
  refine ⟨fun ⟨scope, formed⟩ => ?_, fun ⟨nodup, fits⟩ => exists_ofVars nodup fits⟩
  exact ofVars_eq_ok formed ▸ ⟨scope.nodup_ids, scope.fits⟩

namespace Declaration

variable {α : Type} {decl : Declaration α}

/-! ## Well-formed declarations -/

/-- How many values a name is declared with. -/
def cardOf (decl : Declaration α) (name : String) : Nat :=
  (decl.vars.find? (·.name == name)).elim 0 (·.domain.length)

/-- Values that fill a table over some names: no name is repeated, and there is one value for each joint
position, which can be addressed. -/
structure Fills (decl : Declaration α) (names : List String) (values : List α) : Prop where
  distinct : names.Nodup
  size : values.length = (names.map decl.cardOf).prod
  addressable : values.length < MixedRadix.indexLimit

variable [Scalar α]

/-- A conditional table of a chance variable over chance variables. -/
structure ProperCpt (decl : Declaration α) (table : CptDecl α) : Prop where
  child : decl.IsChance table.child
  parents : ∀ name ∈ table.parents, decl.IsChance name
  fills : decl.Fills (table.parents ++ [table.child]) table.values
  entries : ∀ x ∈ table.values, Scalar.isFinite x = true ∧ ¬ x < 0
  rows : ∀ k < table.values.length / decl.cardOf table.child,
    NearOne (Scalar.total (rowOf (decl.cardOf table.child) table.values k))

/-- A utility table over declared variables. -/
structure ProperUtility (decl : Declaration α) (table : UtilityDecl α) : Prop where
  scope : ∀ name ∈ table.scope, ∃ v ∈ decl.vars, v.name = name
  fills : decl.Fills table.scope table.values
  entries : ∀ x ∈ table.values, Scalar.isFinite x = true

/-- A declaration that describes an influence diagram. -/
structure WellFormed (decl : Declaration α) : Prop where
  named : (decl.vars.map (·.name)).Nodup
  domains : ∀ v ∈ decl.vars, v.domain ≠ [] ∧ v.domain.Nodup
  tabled : ∀ v ∈ decl.vars, v.kind = .chance → ∃ table ∈ decl.cpts, table.child = v.name
  single : (decl.cpts.map (·.child)).Nodup
  tables : ∀ table ∈ decl.cpts, decl.ProperCpt table
  observed : ∀ v ∈ decl.vars, v.kind = .decision → ∀ name ∈ v.info, ∃ u ∈ decl.vars, u.name = name
  acyclic : Topological.Acyclic decl.parentNames
  utility : ∃ table, decl.utilities = [table] ∧ decl.ProperUtility table

/-! ## Scopes -/

section Scopes

omit [Scalar α]

variable {cpts : List (ResolvedCpt α)} {vars : List Variable}
  (named : (decl.vars.map (·.name)).Nodup) (hv : decl.resolveVariables cpts = .ok vars)
include named hv

theorem card_eq {v : Variable} (hm : v ∈ vars) : v.card = decl.cardOf v.name := by
  obtain ⟨e, hr, -, hd⟩ := resolve_of_mem named hv hm
  obtain ⟨at_id, same⟩ := resolve_eq_ok hr
  rw [cardOf, (find?_key named).2 ⟨List.mem_of_getElem? at_id, same⟩, Option.elim_some, hd, Variable.card]

theorem resolveScope_eq_ok {names : List String} {scope : Scope} :
    decl.resolveScope vars names = .ok scope ↔ ∃ picked, (∀ v ∈ picked, v ∈ vars) ∧
      picked.map (·.name) = names ∧ Scope.ofVars picked = .ok scope := by
  unfold resolveScope
  rw [bind_eq_ok]
  refine exists_congr fun picked => ?_
  rw [← and_assoc]
  refine and_congr_left fun _ => ?_
  rw [mapM_eq_ok, ← List.forall₂_eq_eq_eq, List.forall₂_map_left_iff, ← List.forall₂_and_left]
  constructor
  · refine fun h => h.flip.imp fun v name step => ?_
    obtain ⟨⟨id, e⟩, hr, step⟩ := bind_eq_ok.1 step
    obtain ⟨u, hu, -, same, -⟩ := resolved_at hv hr
    simp only [hu] at step
    cases step
    exact ⟨List.mem_of_getElem? hu, same⟩
  · refine fun h => h.flip.imp fun name v step => ?_
    obtain ⟨hm, rfl⟩ := step
    obtain ⟨e, hr, -⟩ := resolve_of_mem named hv hm
    obtain ⟨u, hu, same, -⟩ := resolved_at hv hr
    rw [hr, ok_bind]
    simp only [hu]
    rw [eq_of_id hv (List.mem_of_getElem? hu) hm same]
    rfl

/-- Values fill a table over a list of names exactly if the names are declared and the values are right in
number. -/
theorem exists_resolveScope_iff {names : List String} {values : List α} :
    (∃ scope, decl.resolveScope vars names = .ok scope ∧ values.length = scope.size) ↔
      (∀ name ∈ names, ∃ v ∈ decl.vars, v.name = name) ∧ decl.Fills names values := by
  have declared : ∀ name, (∃ v ∈ decl.vars, v.name = name) ↔ ∃ v ∈ vars, v.name = name := fun name => by
    rw [← List.mem_map, ← List.mem_map, names_eq hv]
  have cards : ∀ picked : List Variable, (∀ v ∈ picked, v ∈ vars) →
      MixedRadix.size (Scope.bases picked) = ((picked.map (·.name)).map decl.cardOf).prod := by
    intro picked sub
    rw [MixedRadix.size_eq_prod, Scope.bases, List.map_map]
    exact congrArg List.prod (List.map_congr_left fun v hm => card_eq named hv (sub v hm))
  have tell_apart : ∀ picked : List Variable, (∀ v ∈ picked, v ∈ vars) →
      ((picked.map (·.id)).Nodup ↔ (picked.map (·.name)).Nodup) := by
    intro picked sub
    constructor
    · exact fun nodup => nodup.of_map.map_on fun u hu v hm => eq_of_name named hv (sub u hu) (sub v hm)
    · exact fun nodup => nodup.of_map.map_on fun u hu v hm => eq_of_id hv (sub u hu) (sub v hm)
  constructor
  · rintro ⟨scope, resolved, size⟩
    obtain ⟨picked, sub, rfl, formed⟩ := (resolveScope_eq_ok named hv).1 resolved
    obtain ⟨nodup, fits⟩ := Scope.exists_ofVars_iff.1 ⟨scope, formed⟩
    rw [Scope.size, Scope.ofVars_eq_ok formed] at size
    refine ⟨fun name hn => ?_, (tell_apart picked sub).1 nodup, ?_, size ▸ fits⟩
    · obtain ⟨v, hm, rfl⟩ := List.mem_map.1 hn
      exact (declared _).2 ⟨v, sub v hm, rfl⟩
    · rw [size, cards picked sub]
  · rintro ⟨known, distinct, size, fits⟩
    -- each name is that of a variable, so the names are those of a list of variables
    obtain ⟨places, rfl⟩ : names ∈ Set.range (List.map fun v : {v // v ∈ vars} => v.1.name) := by
      rw [Set.range_list_map]
      intro name hn
      obtain ⟨v, hm, rfl⟩ := (declared name).1 (known name hn)
      exact ⟨⟨v, hm⟩, rfl⟩
    have sub : ∀ v ∈ places.map (·.1), v ∈ vars := fun v hm => by
      obtain ⟨place, -, rfl⟩ := List.mem_map.1 hm
      exact place.2
    have named_by : (places.map (·.1)).map (·.name) = places.map fun v => v.1.name := List.map_map
    rw [← named_by] at distinct size ⊢
    rw [size, ← cards _ sub] at fits
    obtain ⟨scope, formed⟩ := Scope.exists_ofVars_iff.2 ⟨(tell_apart _ sub).2 distinct, fits⟩
    refine ⟨scope, (resolveScope_eq_ok named hv).2 ⟨_, sub, rfl, formed⟩, ?_⟩
    rw [Scope.size, Scope.ofVars_eq_ok formed, size, cards _ sub]

end Scopes

/-! ## Tables -/

/-- The tables pass exactly if each one that is found for a variable does. -/
theorem exists_buildCpts {cpts : List (ResolvedCpt α)} {declared vars : List Variable} {number : Nat} :
    (∃ tables, decl.buildCpts declared cpts number vars = .ok tables) ↔
      ∀ v ∈ vars, ∀ c, cpts.find? (·.child == v.id) = some c → checkCpt v c.decl.values = .ok () ∧
        ∃ scope, decl.resolveScope declared (c.decl.parents ++ [c.decl.child]) = .ok scope ∧
          c.decl.values.length = scope.size := by
  induction vars generalizing number with
  | nil => exact ⟨fun _ v hv => absurd hv List.not_mem_nil, fun _ => ⟨[], rfl⟩⟩
  | cons v rest ih =>
    rw [List.forall_mem_cons]
    unfold buildCpts
    split
    next missing =>
      simp only [missing, reduceCtorEq, false_imp_iff, implies_true, true_and]
      rw [← @ih number]
      constructor
      · rintro ⟨tables, built⟩
        obtain ⟨others, ho, -⟩ := bind_eq_ok.1 built
        exact ⟨others, ho⟩
      · rintro ⟨others, ho⟩
        exact ⟨_, bind_eq_ok.2 ⟨others, ho, rfl⟩⟩
    next c found =>
      simp only [found, Option.some.injEq, forall_eq']
      rw [← @ih (number + 1)]
      constructor
      · rintro ⟨tables, built⟩
        obtain ⟨scope, hs, built⟩ := bind_eq_ok.1 built
        obtain ⟨⟨⟩, checked, built⟩ := bind_eq_ok.1 built
        obtain ⟨f, hf, built⟩ := bind_eq_ok.1 built
        obtain ⟨others, ho, -⟩ := bind_eq_ok.1 built
        exact ⟨⟨checked, scope, hs, (Factor.ofValues_eq_ok.1 hf).1⟩, others, ho⟩
      · rintro ⟨⟨checked, scope, hs, size⟩, others, ho⟩
        have full : c.decl.values.toArray.size = scope.size := size
        exact ⟨_, bind_eq_ok.2 ⟨scope, hs, bind_eq_ok.2 ⟨(), checked,
          bind_eq_ok.2 ⟨_, Factor.ofValues_eq_ok.2 ⟨full, rfl⟩, bind_eq_ok.2 ⟨others, ho, rfl⟩⟩⟩⟩⟩

section Tables

variable {cpts : List (ResolvedCpt α)} {vars : List Variable}
  (named : (decl.vars.map (·.name)).Nodup) (hv : decl.resolveVariables cpts = .ok vars)
include named hv

/-- A resolved table passes exactly if it is proper. -/
theorem passes_iff_properCpt {c : ResolvedCpt α} (resolved : decl.Resolved c) {v : Variable}
    (hm : v ∈ vars) (child : c.decl.child = v.name) : (checkCpt v c.decl.values = .ok () ∧
      ∃ scope, decl.resolveScope vars (c.decl.parents ++ [c.decl.child]) = .ok scope ∧
        c.decl.values.length = scope.size) ↔ decl.ProperCpt c.decl := by
  rw [exists_resolveScope_iff named hv, checkCpt_eq_ok, card_eq named hv hm, ← child]
  constructor
  · rintro ⟨⟨entries, rows⟩, -, fills⟩
    obtain ⟨chance, parents⟩ := (exists_resolved_iff named).1 ⟨c, rfl, resolved⟩
    refine ⟨chance, parents, fills, entries, rows ?_⟩
    rw [fills.size, List.map_append, List.prod_append, List.map_singleton, List.prod_singleton,
      Nat.mul_mod_left]
  · rintro ⟨⟨u, hu, same, -⟩, parents, fills, entries, rows⟩
    refine ⟨⟨entries, fun _ => rows⟩, fun name hn => ?_, fills⟩
    rcases List.mem_append.1 hn with hn | hn
    · obtain ⟨w, hw, same, -⟩ := parents name hn
      exact ⟨w, hw, same⟩
    · exact ⟨u, hu, same.trans (List.mem_singleton.1 hn).symm⟩

/-- The conditional tables pass exactly if all of them are proper. -/
theorem exists_buildCpts_iff (hc : decl.resolveCpts [] decl.cpts = .ok cpts) :
    (∃ tables, decl.buildCpts vars cpts 0 vars = .ok tables) ↔
      ∀ table ∈ decl.cpts, decl.ProperCpt table := by
  rw [exists_buildCpts]
  constructor
  · intro pass table ht
    obtain ⟨c, mem, rfl, resolved⟩ := forall₂_mem (forall₂_resolveCpts hc) ht
    obtain ⟨e, hr, -⟩ := resolved.child
    obtain ⟨v, hi, -, same, -⟩ := resolved_at hv hr
    have hm := List.mem_of_getElem? hi
    exact (passes_iff_properCpt named hv resolved hm same.symm).1
      (pass v hm c ((find?_child hc named hv hm).2 ⟨mem, same.symm⟩))
  · intro proper v hm c found
    obtain ⟨mem, child⟩ := (find?_child hc named hv hm).1 found
    obtain ⟨table, ht, rfl, resolved⟩ := forall₂_right_mem (forall₂_resolveCpts hc) mem
    exact (passes_iff_properCpt named hv resolved hm child).2 (proper _ ht)

/-- The utility table passes exactly if it is proper. -/
theorem exists_buildUtility_iff {table : UtilityDecl α} {number : Nat} :
    (∃ u, decl.buildUtility vars number table = .ok u) ↔ decl.ProperUtility table := by
  have entries : (table.values.findIdx? fun x => !Scalar.isFinite x) = none ↔
      ∀ x ∈ table.values, Scalar.isFinite x = true := by
    rw [List.findIdx?_eq_none_iff]
    simp
  have scope : _ ↔ _ ∧ decl.Fills table.scope table.values := exists_resolveScope_iff named hv
  unfold buildUtility
  split
  next bad =>
    refine ⟨fun ⟨u, h⟩ => (nomatch h), fun proper => ?_⟩
    rw [entries.2 proper.entries] at bad
    cases bad
  next finite =>
    constructor
    · rintro ⟨u, built⟩
      obtain ⟨s, hs, made⟩ := bind_eq_ok.1 built
      obtain ⟨known, fills⟩ := scope.1 ⟨s, hs, (Factor.ofValues_eq_ok.1 made).1⟩
      exact ⟨known, fills, entries.1 finite⟩
    · rintro ⟨known, fills, -⟩
      obtain ⟨s, hs, size⟩ := scope.2 ⟨known, fills⟩
      exact ⟨_, bind_eq_ok.2 ⟨s, hs, Factor.ofValues_eq_ok.2 ⟨size, rfl⟩⟩⟩

end Tables

/-! ## Builds -/

/-- The variables of a diagram are listed with the parents that the declaration names first. -/
theorem parentsFirst_of_build {d : Diagram α} (h : decl.build = .ok d) :
    Topological.ParentsFirst decl.parentNames ((d.pick d.topological).map (·.name)) := by
  have wf := wellFormed_of_build h
  obtain ⟨checked, cpts, hc, hv, -⟩ := build_eq_ok.1 h
  have named := (checkVariables_eq_ok.1 checked).1
  have ids := wf.map_id_pick fun id => wf.mem_topological.1
  intro pre name post split p hp
  obtain ⟨before, rest, e, rfl, hrest⟩ := List.map_eq_append_iff.1 split
  obtain ⟨v, after, rfl, rfl, -⟩ := List.map_eq_cons_iff.1 hrest
  have hm : v ∈ d.vars := (wf.mem_pick.1 (e ▸ List.mem_append_right _ List.mem_cons_self)).1
  obtain ⟨u, hu, rfl, arc⟩ := (mem_parentNames hc named hv hm).1 hp
  rw [e, List.map_append, List.map_cons] at ids
  rw [← wf.parentsOf_eq hm] at arc
  obtain ⟨w, hw, same⟩ := List.mem_map.1 (wf.parentsFirst _ _ _ ids.symm _ arc)
  have hw' : w ∈ d.vars := (wf.mem_pick.1 (e ▸ List.mem_append_left _ hw)).1
  exact wf.inj w hw' u hu same ▸ List.mem_map_of_mem hw

/-- A declaration that builds has no cycle. -/
theorem acyclic_of_build {d : Diagram α} (h : decl.build = .ok d) :
    Topological.Acyclic decl.parentNames := by
  have wf := wellFormed_of_build h
  obtain ⟨checked, cpts, hc, hv, -⟩ := build_eq_ok.1 h
  have named := (checkVariables_eq_ok.1 checked).1
  refine (parentsFirst_of_build h).acyclic fun name p hp => ?_
  obtain ⟨n, -, v, -, hn, rfl, -⟩ := places_of_names hc named hv hp
  have hm := List.mem_of_getElem? hn
  exact List.mem_map.2 ⟨v, wf.mem_pick.2 ⟨hm, wf.mem_topological.2 ⟨v, hm, rfl⟩⟩, rfl⟩

omit [Scalar α] in
theorem theUtility_eq_ok {tables : List (UtilityDecl α)} {table : UtilityDecl α} :
    theUtility tables = .ok table ↔ tables = [table] := by
  constructor
  · intro h
    unfold theUtility at h
    split at h
    next => cases h
    next => cases h; rfl
    next => cases h
  · rintro rfl
    rfl

/-- A declaration builds exactly if it is well formed, and then all its variables are listed with parents
first. -/
theorem exists_build_iff (decl : Declaration α) : ((∃ d, decl.build = .ok d) ↔ decl.WellFormed) ∧
    ∀ d, decl.build = .ok d → d.vars.map (·.name) = decl.vars.map (·.name) ∧
      d.topological.Perm (d.vars.map (·.id)) ∧
      Topological.ParentsFirst decl.parentNames ((d.pick d.topological).map (·.name)) := by
  refine ⟨⟨fun ⟨d, h⟩ => ?_, fun wf => ?_⟩, fun d h => ?_⟩
  · obtain ⟨checked, cpts, hc, hv, sorted, table, one, ht, hu, -⟩ := build_eq_ok.1 h
    obtain ⟨named, -, domains⟩ := checkVariables_eq_ok.1 checked
    obtain ⟨tabled, observed⟩ := (exists_resolveVariables_iff hc named).1 ⟨_, hv⟩
    exact ⟨named, domains, tabled, ((exists_resolveCpts_iff named).1 ⟨cpts, hc⟩).1,
      (exists_buildCpts_iff named hv hc).1 ⟨_, ht⟩, observed, acyclic_of_build h,
      table, theUtility_eq_ok.1 one, (exists_buildUtility_iff named hv).1 ⟨_, hu⟩⟩
  · obtain ⟨table, one, proper⟩ := wf.utility
    have checked : checkVariables [] decl.vars = .ok () :=
      checkVariables_eq_ok.2 ⟨wf.named, fun _ _ => List.not_mem_nil, wf.domains⟩
    obtain ⟨cpts, hc⟩ := (exists_resolveCpts_iff wf.named).2
      ⟨wf.single, fun table ht => ⟨(wf.tables table ht).child, (wf.tables table ht).parents⟩⟩
    obtain ⟨vars, hv⟩ := (exists_resolveVariables_iff hc wf.named).2 ⟨wf.tabled, wf.observed⟩
    obtain ⟨order, sorted⟩ := exists_sortVariables hc wf.named hv wf.acyclic
    obtain ⟨tables, ht⟩ := (exists_buildCpts_iff wf.named hv hc).2 wf.tables
    obtain ⟨utility, hu⟩ := (exists_buildUtility_iff wf.named hv).2 proper
    exact ⟨⟨vars, tables, utility, order, cpts.length + 1⟩, build_eq_ok.2
      ⟨checked, cpts, hc, hv, sorted, table, theUtility_eq_ok.2 one, ht, hu, rfl⟩⟩
  · obtain ⟨-, cpts, hc, hv, -⟩ := build_eq_ok.1 h
    exact ⟨names_eq hv, (wellFormed_of_build h).listed, parentsFirst_of_build h⟩

/-- Whether to take an umbrella is a well-formed decision problem, and the weather is listed before its
forecast and the forecast before the decision. -/
theorem wellFormed_umbrella : Diagram.umbrella.WellFormed ∧
    Topological.ParentsFirst Diagram.umbrella.parentNames
      ((Diagram.umbrellaDiagram.pick Diagram.umbrellaDiagram.topological).map (·.name)) :=
  have built := Diagram.build_umbrella
  ⟨(exists_build_iff Diagram.umbrella).1.1 ⟨_, built⟩, ((exists_build_iff _).2 _ built).2.2⟩

end Declaration

end Counsel
