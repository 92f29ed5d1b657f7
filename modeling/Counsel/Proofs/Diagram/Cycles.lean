/-
Declarations with a cycle. A sort that fails names the first node whose counter is not down, and the
counters that stay up are those of the nodes on a cycle and of all that descend from one
(`sort_eq_error_iff`). No other check of a build reports a cycle (`build_eq_cycle`), so a build reports
one exactly if the arcs of the declaration are in order and have a cycle, and the name is that of the
first declared variable that is on a cycle or descends from one (`build_eq_cycle_iff`).
-/
import Counsel.Proofs.Diagram.Arcs

namespace Counsel

open Outcome

namespace Topological

/-! ## Counters that stay up -/

/-- What waits for a cycle in one graph waits for one wherever its arcs lead. -/
theorem Stuck.map {β γ : Type} {parents : β → List β} {others : γ → List γ} (f : β → γ)
    (arcs : ∀ n, ∀ p ∈ parents n, f p ∈ others (f n)) {n : β} (h : Stuck parents n) :
    Stuck others (f n) := by
  obtain ⟨a, cycle, reaches⟩ := h
  exact ⟨f a, cycle.lift f fun p n parent => arcs n p parent,
    reaches.lift f fun p n parent => arcs n p parent⟩

/-- The first counter that is up. -/
theorem findIdx?_eq_some_iff {counters : Array Nat} {n : Nat} :
    counters.findIdx? (0 < ·) = some n ↔ IsLeast {k | 0 < counters.getD k 0} n := by
  have up : ∀ {k}, 0 < counters.getD k 0 ↔ ∃ h : k < counters.size, 0 < counters[k] := fun {k} => by
    by_cases h : k < counters.size <;> simp [Array.getD, h]
  rw [Array.findIdx?_eq_some_iff_getElem]
  constructor
  · rintro ⟨lt, here, before⟩
    refine ⟨up.2 ⟨lt, of_decide_eq_true here⟩, fun k hk => ?_⟩
    obtain ⟨hlt, pos⟩ := up.1 hk
    by_contra earlier
    exact before k (Nat.lt_of_not_ge earlier) (decide_eq_true pos)
  · rintro ⟨here, least⟩
    obtain ⟨lt, pos⟩ := up.1 here
    refine ⟨lt, decide_eq_true pos, fun k hk earlier => ?_⟩
    exact absurd (least (up.2 ⟨hk.trans lt, of_decide_eq_true earlier⟩)) (Nat.not_le_of_lt hk)

variable {parents : List (List Nat)} (bounded : ∀ n, ∀ p ∈ parentsAt parents n, p < parents.length)
include bounded

/-- When a sort ends, the counters are up of the nodes that are on a cycle or descend from one. -/
theorem waiting_final_iff {n : Nat} :
    0 < (final parents).waiting.getD n 0 ↔ n < parents.length ∧ Stuck (parentsAt parents) n := by
  have sound := sound_final parents
  constructor
  · intro up
    have lt : n < parents.length := by
      by_contra outside
      rw [Array.getD_eq_getD_getElem?, Array.getElem?_eq_none (sound.size ▸ Nat.not_lt.1 outside)] at up
      exact absurd up (lt_irrefl 0)
    refine ⟨lt, ?_⟩
    by_contra free
    have listed := (mem_final_iff bounded lt).2 free
    rw [sound.free n (List.mem_append_left _ listed)] at up
    exact absurd up (lt_irrefl 0)
  · rintro ⟨lt, stuck⟩
    refine Nat.pos_of_ne_zero fun down => ?_
    have listed := prompt_final parents n lt down
    rw [ready_final, List.append_nil] at listed
    exact (mem_final_iff bounded lt).1 listed stuck

/-- A sort fails with the first node that is on a cycle or descends from one. -/
theorem sort_eq_error_iff {n : Nat} : sort parents = .error n ↔
    IsLeast {k | k < parents.length ∧ Stuck (parentsAt parents) k} n := by
  have up : {k | k < parents.length ∧ Stuck (parentsAt parents) k} =
      {k | 0 < (final parents).waiting.getD k 0} := Set.ext fun k => (waiting_final_iff bounded).symm
  have short := short_final_iff bounded
  unfold sort
  simp only
  rw [← final]
  split
  next falls_short =>
    have some_stuck : {k | k < parents.length ∧ Stuck (parentsAt parents) k}.Nonempty :=
      short.1 falls_short
    rw [up] at some_stuck ⊢
    have least := isLeast_csInf some_stuck
    rw [findIdx?_eq_some_iff.2 least, Option.getD_some, Except.error.injEq]
    exact ⟨fun same => same ▸ least, fun other => least.unique other⟩
  next full =>
    exact ⟨fun h => (nomatch h), fun least => absurd (short.2 ⟨n, least.1⟩) full⟩

end Topological

namespace Declaration

variable {α : Type} {decl : Declaration α}

/-! ## Names that wait -/

theorem sortVariables_eq_error_iff {vars : List Variable} {e : ModelError} :
    sortVariables vars = .error e ↔ ∃ n, Topological.sort (parentPlaces vars) = .error n ∧
      e = .cycle ((vars[n]?).elim "" (·.name)) := by
  unfold sortVariables
  rw [← parentPlaces]
  cases Topological.sort (parentPlaces vars) with
  | ok places => simp
  | error n => simp [eq_comm]

/-- What a build looks at before it sorts: the names of a declaration are in order. -/
structure Wired (decl : Declaration α) : Prop where
  named : (decl.vars.map (·.name)).Nodup
  domains : ∀ v ∈ decl.vars, v.domain ≠ [] ∧ v.domain.Nodup
  tabled : ∀ v ∈ decl.vars, v.kind = .chance → ∃ table ∈ decl.cpts, table.child = v.name
  single : (decl.cpts.map (·.child)).Nodup
  known : ∀ table ∈ decl.cpts, decl.IsChance table.child ∧ ∀ name ∈ table.parents, decl.IsChance name
  observed : ∀ v ∈ decl.vars, v.kind = .decision → ∀ name ∈ v.info, ∃ u ∈ decl.vars, u.name = name

theorem wired_iff : decl.Wired ↔ checkVariables [] decl.vars = .ok () ∧
    ∃ cpts, decl.resolveCpts [] decl.cpts = .ok cpts ∧
      ∃ vars, decl.resolveVariables cpts = .ok vars := by
  constructor
  · intro wired
    obtain ⟨cpts, hc⟩ := (exists_resolveCpts_iff wired.named).2 ⟨wired.single, wired.known⟩
    exact ⟨checkVariables_eq_ok.2 ⟨wired.named, fun _ _ => List.not_mem_nil, wired.domains⟩, cpts, hc,
      (exists_resolveVariables_iff hc wired.named).2 ⟨wired.tabled, wired.observed⟩⟩
  · rintro ⟨checked, cpts, hc, hv⟩
    obtain ⟨named, -, domains⟩ := checkVariables_eq_ok.1 checked
    obtain ⟨tabled, observed⟩ := (exists_resolveVariables_iff hc named).1 hv
    obtain ⟨single, known⟩ := (exists_resolveCpts_iff named).1 ⟨cpts, hc⟩
    exact ⟨named, domains, tabled, single, known, observed⟩

/-- A variable is stuck where it stands exactly if its name is. -/
theorem stuck_place_iff {cpts : List (ResolvedCpt α)} {vars : List Variable}
    (hc : decl.resolveCpts [] decl.cpts = .ok cpts) (named : (decl.vars.map (·.name)).Nodup)
    (hv : decl.resolveVariables cpts = .ok vars) {n : Nat} {v : Variable} (hn : vars[n]? = some v) :
    Topological.Stuck (Topological.parentsAt (parentPlaces vars)) n ↔
      Topological.Stuck decl.parentNames v.name := by
  -- arcs between names lead to arcs between the places where the names stand, and back
  have place : ∀ {i : Nat} {u : Variable}, vars[i]? = some u →
      (vars.map (·.name)).idxOf u.name = i := fun {i u} hi => by
    obtain ⟨lt, rfl⟩ := List.getElem?_eq_some_iff.1 hi
    have := (names_eq hv ▸ named : (vars.map (·.name)).Nodup).idxOf_getElem i (by simpa using lt)
    rwa [List.getElem_map] at this
  constructor
  · intro stuck
    have := stuck.map (fun i => (vars[i]?).elim "" (·.name)) fun i p hp => by
      obtain ⟨u, w, hi, hw, arc⟩ := names_of_places hc named hv hp
      rw [hi, hw]
      exact arc
    rwa [hn] at this
  · intro stuck
    have := stuck.map (fun name => (vars.map (·.name)).idxOf name) fun name p hp => by
      obtain ⟨i, j, u, w, hi, rfl, hj, rfl, arc⟩ := places_of_names hc named hv hp
      rwa [place hi, place hj]
    rwa [place hn] at this

theorem setOf_stuck_eq {cpts : List (ResolvedCpt α)} {vars : List Variable}
    (hc : decl.resolveCpts [] decl.cpts = .ok cpts) (named : (decl.vars.map (·.name)).Nodup)
    (hv : decl.resolveVariables cpts = .ok vars) :
    {k | k < (parentPlaces vars).length ∧
        Topological.Stuck (Topological.parentsAt (parentPlaces vars)) k} =
      {k | ∃ u, decl.vars[k]? = some u ∧ Topological.Stuck decl.parentNames u.name} := by
  have length : (parentPlaces vars).length = vars.length := List.length_map _
  ext k
  constructor
  · rintro ⟨lt, stuck⟩
    have hk := List.getElem?_eq_getElem (length ▸ lt)
    obtain ⟨e, he, -, hn, -⟩ := declaration_at hv hk
    exact ⟨e, he, hn ▸ (stuck_place_iff hc named hv hk).1 stuck⟩
  · rintro ⟨e, he, stuck⟩
    obtain ⟨v, hk, -, hn, -⟩ := declared_at hv he
    exact ⟨length ▸ (List.getElem?_eq_some_iff.1 hk).1, (stuck_place_iff hc named hv hk).2 (hn ▸ stuck)⟩

/-! ## Checks that report no cycle -/

/-- An error that is no cycle. -/
def IsOther (e : ModelError) : Prop := ∀ name, e ≠ .cycle name

theorem failsWith_checkVariables (seen : List String) (vars : List VariableDecl) :
    FailsWith IsOther (checkVariables seen vars) := by
  induction vars generalizing seen with
  | nil => exact failsWith_ok
  | cons v rest ih =>
    unfold checkVariables
    split
    · exact failsWith_error (by simp [IsOther])
    · split
      · exact failsWith_error (by simp [IsOther])
      · split
        · exact failsWith_error (by simp [IsOther])
        · exact ih _

theorem failsWith_resolve (name : String) : FailsWith IsOther (decl.resolve name) := by
  unfold resolve
  split
  · exact failsWith_ok
  · exact failsWith_error (by simp [IsOther])

theorem failsWith_resolveParent {child : String} (name : String) :
    FailsWith IsOther (decl.resolveParent child name) := by
  refine (failsWith_resolve name).bind fun _ => ?_
  simp only
  split
  · exact failsWith_error (by simp [IsOther])
  · exact failsWith_ok

theorem failsWith_resolveCpts (done : List (ResolvedCpt α)) (tables : List (CptDecl α)) :
    FailsWith IsOther (decl.resolveCpts done tables) := by
  induction tables generalizing done with
  | nil => exact failsWith_ok
  | cons table rest ih =>
    unfold resolveCpts
    refine (failsWith_resolve _).bind fun _ => ?_
    simp only
    split
    · exact failsWith_error (by simp [IsOther])
    · split
      · exact failsWith_error (by simp [IsOther])
      · exact (FailsWith.mapM failsWith_resolveParent).bind fun _ => ih _

theorem failsWith_resolveVariables (cpts : List (ResolvedCpt α)) :
    FailsWith IsOther (decl.resolveVariables cpts) := by
  refine FailsWith.mapM fun _ => .bind ?_ fun _ => failsWith_ok
  unfold parentsOf
  split
  · split
    · exact failsWith_ok
    · exact failsWith_error (by simp [IsOther])
  · exact .mapM fun name => (failsWith_resolve name).bind fun _ => failsWith_ok

theorem failsWith_resolveScope (declared : List Variable) (names : List String) :
    FailsWith IsOther (decl.resolveScope declared names) := by
  refine .bind (.mapM fun name => (failsWith_resolve name).bind fun _ => ?_) fun vars => ?_
  · simp only
    split
    · exact failsWith_ok
    · exact failsWith_error (by simp [IsOther])
  · unfold Scope.ofVars
    split
    · exact failsWith_error (by simp [IsOther])
    · split
      · exact failsWith_ok
      · exact failsWith_error (by simp [IsOther])

theorem failsWith_ofValues (number : Nat) (scope : Scope) (role : Role) (values : Array α) :
    FailsWith IsOther (Factor.ofValues number scope role values) := by
  unfold Factor.ofValues
  split
  · exact failsWith_ok
  · exact failsWith_error (by simp [IsOther])

theorem failsWith_theUtility (tables : List (UtilityDecl α)) : FailsWith IsOther (theUtility tables) := by
  unfold theUtility
  split
  · exact failsWith_error (by simp [IsOther])
  · exact failsWith_ok
  · exact failsWith_error (by simp [IsOther])

variable [Scalar α]

theorem failsWith_checkCpt (child : Variable) (values : List α) :
    FailsWith IsOther (checkCpt child values) := by
  unfold checkCpt
  split
  · exact failsWith_error (by simp [IsOther])
  · split
    · exact failsWith_ok
    · split
      · exact failsWith_error (by simp [IsOther])
      · exact failsWith_ok

theorem failsWith_buildCpts (declared : List Variable) (cpts : List (ResolvedCpt α)) (number : Nat)
    (vars : List Variable) : FailsWith IsOther (decl.buildCpts declared cpts number vars) := by
  induction vars generalizing number with
  | nil => exact failsWith_ok
  | cons v rest ih =>
    unfold buildCpts
    split
    · exact (ih _).bind fun _ => failsWith_ok
    · refine (failsWith_resolveScope _ _).bind fun scope => (failsWith_checkCpt _ _).bind fun _ => ?_
      exact (failsWith_ofValues _ _ _ _).bind fun f => (ih _).bind fun _ => failsWith_ok

theorem failsWith_buildUtility (declared : List Variable) (number : Nat) (table : UtilityDecl α) :
    FailsWith IsOther (decl.buildUtility declared number table) := by
  unfold buildUtility
  split
  · exact failsWith_error (by simp [IsOther])
  · exact (failsWith_resolveScope _ _).bind fun _ => failsWith_ofValues _ _ _ _

/-- A cycle is reported by the sort of the variables only. -/
theorem build_eq_cycle {name : String} : decl.build = .error (.cycle name) ↔
    checkVariables [] decl.vars = .ok () ∧ ∃ cpts, decl.resolveCpts [] decl.cpts = .ok cpts ∧
      ∃ vars, decl.resolveVariables cpts = .ok vars ∧ sortVariables vars = .error (.cycle name) := by
  unfold build
  constructor
  · intro h
    rcases bind_eq_error.1 h with here | ⟨⟨⟩, checked, h⟩
    · exact absurd rfl (failsWith_checkVariables _ _ _ here name)
    rcases bind_eq_error.1 h with here | ⟨cpts, hc, h⟩
    · exact absurd rfl (failsWith_resolveCpts _ _ _ here name)
    rcases bind_eq_error.1 h with here | ⟨vars, hv, h⟩
    · exact absurd rfl (failsWith_resolveVariables _ _ here name)
    rcases bind_eq_error.1 h with here | ⟨order, -, h⟩
    · exact ⟨checked, cpts, hc, vars, hv, here⟩
    -- after the sort only the numbers of the tables are looked at
    rcases bind_eq_error.1 h with here | ⟨table, -, h⟩
    · exact absurd rfl (failsWith_theUtility _ _ here name)
    rcases bind_eq_error.1 h with here | ⟨tables, -, h⟩
    · exact absurd rfl (failsWith_buildCpts _ _ _ _ _ here name)
    rcases bind_eq_error.1 h with here | ⟨utility, -, h⟩
    · exact absurd rfl (failsWith_buildUtility _ _ _ _ here name)
    cases h
  · rintro ⟨checked, cpts, hc, vars, hv, fails⟩
    simp only [checked, hc, hv, ok_bind]
    exact bind_eq_error.2 (.inl fails)

/-! ## The name that is reported -/

/-- A build reports a cycle exactly if the names of the declaration are in order and their arcs have a
cycle. The name in the report is that of the first declared variable that is on a cycle or descends from
one. -/
theorem build_eq_cycle_iff (decl : Declaration α) (name : String) :
    decl.build = .error (.cycle name) ↔ decl.Wired ∧ ∃ (i : Nat) (v : VariableDecl),
      decl.vars[i]? = some v ∧ v.name = name ∧
      IsLeast {k | ∃ u, decl.vars[k]? = some u ∧ Topological.Stuck decl.parentNames u.name} i := by
  rw [build_eq_cycle, wired_iff]
  constructor
  · rintro ⟨checked, cpts, hc, vars, hv, fails⟩
    have named := (checkVariables_eq_ok.1 checked).1
    obtain ⟨n, fails, same⟩ := sortVariables_eq_error_iff.1 fails
    have least := (Topological.sort_eq_error_iff (parentPlaces_lt hc named hv)).1 fails
    rw [setOf_stuck_eq hc named hv] at least
    obtain ⟨e, he, -⟩ := least.1
    obtain ⟨v, hi, -, hn, -⟩ := declared_at hv he
    rw [hi, Option.elim_some, hn] at same
    exact ⟨⟨checked, cpts, hc, vars, hv⟩, n, e, he, (ModelError.cycle.inj same).symm, least⟩
  · rintro ⟨⟨checked, cpts, hc, vars, hv⟩, i, e, he, rfl, least⟩
    have named := (checkVariables_eq_ok.1 checked).1
    obtain ⟨v, hi, -, hn, -⟩ := declared_at hv he
    rw [← setOf_stuck_eq hc named hv,
      ← Topological.sort_eq_error_iff (parentPlaces_lt hc named hv)] at least
    exact ⟨checked, cpts, hc, vars, hv, sortVariables_eq_error_iff.2
      ⟨i, least, by rw [hi, Option.elim_some, hn]⟩⟩

/-- A decision that observes itself, and before it one that observes this decision only. -/
def bystander : Declaration Rat where
  vars := [⟨"Bystander", .decision, Value.boolean, ["Regress"]⟩,
    ⟨"Regress", .decision, Value.boolean, ["Regress"]⟩]
  cpts := []
  utilities := [⟨["Bystander", "Regress"], [0, 0, 0, 0]⟩]

/-- The bystander is reported, though the cycle is elsewhere. -/
theorem build_bystander : bystander.build = .error (.cycle "Bystander") ∧
    Topological.Stuck bystander.parentNames "Bystander" ∧
    ¬ Relation.TransGen (fun p n => p ∈ bystander.parentNames n) "Bystander" "Bystander" := by
  have failed : bystander.build = .error (.cycle "Bystander") :=
    map_eq_error.1 (show bystander.build.map (fun _ => ()) = _ by decide +kernel)
  obtain ⟨-, i, v, hv, same, ⟨u, hu, stuck⟩, -⟩ := (build_eq_cycle_iff bystander "Bystander").1 failed
  rw [← Option.some.inj (hv.symm.trans hu), same] at stuck
  refine ⟨failed, stuck, fun cycle => ?_⟩
  obtain ⟨child, parent, -⟩ := Relation.TransGen.head'_iff.1 cycle
  simp [mem_parentNames_iff, bystander] at parent

end Declaration

end Counsel
