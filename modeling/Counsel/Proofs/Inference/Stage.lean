/-
What one step of an elimination does to a list of factors. Filling evidence in takes the observed
variables from every scope (`project_spec`); summing a variable out puts one sum in place of the
factors that mention it (`eliminate_cases`); maximising a decision out puts a maximum in place of the
one factor that mentions it (`maximise_cases`). A stage records which variables can still occur, that
every chance variable among them does, and where the utility is. Both steps put one factor in place of
those that mention a variable (`Merged`), which leads from a stage to a stage without the variable
(`Stage.merge`).
-/
import Counsel.Proofs.Diagram.Ancestors
import Counsel.Proofs.Factor.Numbering
import Counsel.Inference.Solve

namespace Counsel

open Outcome

namespace Diagram

variable {α : Type}

/-- All variables of the diagram together fit into one scope. -/
def Fits (d : Diagram α) : Prop := MixedRadix.size (Scope.bases d.vars) < MixedRadix.indexLimit

/-- A factor with evidence filled in: without the observed variables, and otherwise the same. -/
structure Projected [Scalar α] (evidence : Slots) (f g : Factor α) : Prop where
  mem_ids : ∀ id, id ∈ g.scope.ids ↔ id ∈ f.scope.ids ∧ evidence.isAssigned id = false
  carriesUtility : g.carriesUtility = f.carriesUtility
  value : ∀ x : World, x.Agrees evidence → g.valueIn x = f.valueIn x

/-! ## Summing a variable out -/

theorem mentions_iff {f : Factor α} {id : VarId} : f.mentions id = true ↔ id ∈ f.scope.ids :=
  Scope.contains_iff

/-- Where one factor mentions a variable, it is in the list and no other one mentions it. -/
theorem mentioning_one {fs : List (Factor α)} {id : VarId} {base : Factor α}
    (one : fs.filter (·.mentions id) = [base]) {f : Factor α} :
    f ∈ fs ∧ id ∈ f.scope.ids ↔ f = base := by
  have listed : f ∈ fs.filter (·.mentions id) ↔ f = base := by rw [one, List.mem_singleton]
  rwa [List.mem_filter, mentions_iff] at listed

theorem mentions_eq_false {f : Factor α} {id : VarId} :
    f.mentions id = false ↔ id ∉ f.scope.ids := by
  rw [← mentions_iff, Bool.not_eq_true]

theorem mentioning_isEmpty {fs : List (Factor α)} {id : VarId} :
    (fs.filter (·.mentions id)).isEmpty = true ↔ ∀ f ∈ fs, id ∉ f.scope.ids := by
  rw [List.isEmpty_iff, List.filter_eq_nil_iff]
  simp only [mentions_iff]

/-- A variable that no factor mentions is passed over; otherwise one sum takes the place of the
factors that mention it. -/
theorem eliminate_cases {fs gs : List (Factor α)} {v : Variable} {n m : Nat}
    (h : answer (eliminate fs v) n = (.ok gs, m)) :
    ((∀ f ∈ fs, v.id ∉ f.scope.ids) ∧ gs = fs ∧ m = n) ∨
    ((∃ f ∈ fs, v.id ∈ f.scope.ids) ∧ m = n + 1 ∧ ∃ sum,
      Factor.sumOut n v (fs.filter (·.mentions v.id)) = .ok sum ∧
        gs = fs.filter (!·.mentions v.id) ++ [sum]) := by
  unfold eliminate at h
  simp only [List.partition_eq_filter_filter] at h
  split at h
  next none_left =>
    rw [mentioning_isEmpty] at none_left
    cases h
    refine .inl ⟨none_left, List.filter_eq_self.2 fun f hf => ?_, rfl⟩
    exact Bool.not_eq_true' _ ▸ mentions_eq_false.2 (none_left f hf)
  next some_left =>
    rw [mentioning_isEmpty] at some_left
    rw [answer_bind_of_ok (answer_nextNumber n), answer_bind_ok] at h
    obtain ⟨sum, u, hs, h⟩ := h
    obtain ⟨made, rfl⟩ := answer_ofModel_eq_ok.1 hs
    cases h
    push Not at some_left
    exact .inr ⟨some_left, rfl, sum, made, rfl⟩

/-! ## Maximising a decision out -/

/-- The first variable of a factor that a decision does not observe. -/
def firstOutside (v : Variable) (base : Factor α) : Option Variable :=
  base.scope.vars.find? fun u => u.id != v.id && !v.parents.contains u.id

theorem firstOutside_eq_none {v : Variable} {base : Factor α} :
    firstOutside v base = none ↔ ∀ u ∈ base.scope.vars, u.id = v.id ∨ u.id ∈ v.parents := by
  unfold firstOutside
  simp only [List.find?_eq_none, Bool.and_eq_true, bne_iff_ne, Bool.not_eq_true', List.contains_eq_mem,
    decide_eq_false_iff_not, not_and, not_not, or_iff_not_imp_left]

/-- A decision that no factor mentions gets no table; otherwise one factor mentions it, depends on
nothing else than its parents, and a maximum takes its place. -/
theorem maximise_cases {state state' : Elimination α} {v : Variable} {n m : Nat}
    (h : answer (maximise state v) n = (.ok state', m)) :
    ((∀ f ∈ state.factors, v.id ∉ f.scope.ids) ∧ m = n ∧
      state' = ⟨state.factors, state.rules ++ [⟨v, none⟩]⟩) ∨
    (m = n + 1 ∧ ∃ base best, state.factors.filter (·.mentions v.id) = [base] ∧
      (∀ u ∈ base.scope.vars, u.id = v.id ∨ u.id ∈ v.parents) ∧
      Factor.maxOut n v base = .ok best ∧ state' = ⟨state.factors.filter (!·.mentions v.id) ++ [best],
        state.rules ++ [⟨v, some best⟩]⟩) := by
  unfold maximise at h
  simp only [List.partition_eq_filter_filter] at h
  split at h
  next none_left =>
    rw [← List.isEmpty_iff, mentioning_isEmpty] at none_left
    cases h
    refine .inl ⟨none_left, rfl, ?_⟩
    congr 1
    apply List.filter_eq_self.2
    intro f hf
    exact Bool.not_eq_true' _ ▸ mentions_eq_false.2 (none_left f hf)
  next base one =>
    split at h
    next => cases h
    next inside =>
      rw [answer_bind_of_ok (answer_nextNumber n), answer_bind_ok] at h
      obtain ⟨best, u, hb, h⟩ := h
      obtain ⟨made, rfl⟩ := answer_ofModel_eq_ok.1 hb
      cases h
      exact .inr ⟨rfl, base, best, one, firstOutside_eq_none.1 inside, made, rfl⟩
  next => cases h

/-! ## One factor for those that mention a variable -/

variable {fs gs : List (Factor α)} {n m : Nat}

/-- One factor took the place of the factors that mention a variable: it depends on the other variables
of these factors, and carries the utility if one of them did. -/
structure Merged (id : VarId) (fs gs : List (Factor α)) (g : Factor α) : Prop where
  replaced : gs = fs.filter (!·.mentions id) ++ [g]
  mentioned : ∃ f ∈ fs, id ∈ f.scope.ids
  mem_ids : ∀ u, u ∈ g.scope.ids ↔ (∃ f ∈ fs, id ∈ f.scope.ids ∧ u ∈ f.scope.ids) ∧ u ≠ id
  carries : g.carriesUtility = true ↔ ∃ f ∈ fs, id ∈ f.scope.ids ∧ f.carriesUtility = true

theorem Merged.mem {id : VarId} {g : Factor α} (h : Merged id fs gs g) {f : Factor α} :
    f ∈ gs ↔ (f ∈ fs ∧ id ∉ f.scope.ids) ∨ f = g := by
  rw [h.replaced, List.mem_append, List.mem_singleton, List.mem_filter, Bool.not_eq_true',
    mentions_eq_false]

theorem merged_sum {v : Variable} {sum : Factor α} (mentioned : ∃ f ∈ fs, v.id ∈ f.scope.ids)
    (made : Factor.sumOut n v (fs.filter (·.mentions v.id)) = .ok sum) :
    Merged v.id fs (fs.filter (!·.mentions v.id) ++ [sum]) sum where
  replaced := rfl
  mentioned := mentioned
  mem_ids u := by
    rw [Factor.mem_sumOut_ids made]
    simp only [List.mem_filter, mentions_iff, and_assoc]
  carries := by
    rw [Factor.carriesUtility_sumOut made, List.any_eq_true]
    simp only [List.mem_filter, mentions_iff, and_assoc]

theorem merged_max {v : Variable} {base best : Factor α} (one : fs.filter (·.mentions v.id) = [base])
    (made : Factor.maxOut n v base = .ok best) :
    Merged v.id fs (fs.filter (!·.mentions v.id) ++ [best]) best := by
  have hbase := (mentioning_one one).2 rfl
  refine ⟨rfl, ⟨base, hbase⟩, fun u => ?_, ?_⟩
  · rw [Factor.mem_maxOut_ids made]
    refine and_congr_left fun _ => ⟨fun hu => ⟨base, hbase.1, hbase.2, hu⟩, ?_⟩
    rintro ⟨f, hf, hm, hu⟩
    exact (mentioning_one one).1 ⟨hf, hm⟩ ▸ hu
  · rw [Factor.carriesUtility_maxOut made]
    refine ⟨fun carries => ⟨base, hbase.1, hbase.2, carries⟩, ?_⟩
    rintro ⟨f, hf, hm, carries⟩
    exact (mentioning_one one).1 ⟨hf, hm⟩ ▸ carries

/-- Of at most one carrier among some factors, `any` is the count. -/
theorem countP_eq_any {p : Factor α → Bool} {l : List (Factor α)} (h : l.countP p ≤ 1) :
    l.countP p = [l.any p].countP id := by
  cases k : l.any p with
  | false =>
    rw [List.any_eq_false] at k
    exact List.countP_eq_zero.2 k
  | true =>
    have pos : 0 < l.countP p := List.countP_pos_iff.2 (List.any_eq_true.1 k)
    show l.countP p = 1
    omega

variable [Scalar α] {d : Diagram α}

/-- What the numbering of some factors says after a step that may have made further ones. -/
structure Listed (d : Diagram α) (nodes : Factor α → Prop) (next : Nat) (fs : List (Factor α)) : Prop
    extends Factor.Numbered d.vars nodes next where
  members : ∀ f ∈ fs, nodes f

/-! ## Filling evidence in -/

theorem projected_self {evidence : Slots} {f : Factor α}
    (h : ∀ id ∈ f.scope.ids, evidence.isAssigned id = false) : Projected evidence f f where
  mem_ids id := (and_iff_left_of_imp (h id)).symm
  carriesUtility := rfl
  value _ _ := rfl

theorem projected_observe {evidence : Slots} {f g : Factor α} {n : Nat}
    (made : Factor.observe n f evidence = .ok g) : Projected evidence f g := by
  refine ⟨Factor.mem_observe_ids made, ?_, fun x agrees => ?_⟩
  · obtain ⟨scope, -, rfl⟩ := Factor.observe_eq_ok.1 made
    rfl
  · obtain ⟨scope, -, rfl⟩ := Factor.observe_eq_ok.1 made
    rw [Factor.valueIn, Factor.cellIn, World.setAll_eq_self, Factor.valueIn]
    exact fun e he => World.agrees_iff.1 agrees e.1 e.2 (Factor.mem_entriesOn.1 he).2

/-- The scope of an observed factor is part of the scope of the factor, so it is formed. -/
theorem exists_observe (h : d.WellFormed) {f : Factor α} (built : Factor.Built d.vars f)
    (n : Nat) (evidence : Slots) : ∃ g, Factor.observe n f evidence = .ok g := by
  have inside : ∀ part ∈ [f.scope], ∀ v ∈ part.vars,
      v.id ∉ (Factor.entriesOn evidence f.scope.ids).map (·.1) → v ∈ f.scope.vars := by simp +contextual
  obtain ⟨scope, hs⟩ := Scope.exists_union inside
    (fun v hv => h.card_pos (built.mem_vars v hv)) f.scope.fits
  exact ⟨_, Factor.observe_eq_ok.2 ⟨scope, hs, rfl⟩⟩

theorem projectOne_spec (h : d.WellFormed) {evidence : Slots} (within : evidence.Within d.vars)
    {nodes : Factor α → Prop} {n : Nat} (numbered : Factor.Numbered d.vars nodes n) {f : Factor α}
    (hf : nodes f) : ∃ g m nodes', answer (projectOne evidence f) n = (.ok g, m) ∧
      Projected evidence f g ∧ Factor.Numbered d.vars nodes' m ∧ (∀ k, nodes k → nodes' k) ∧
      nodes' g := by
  unfold projectOne
  split
  next some_observed =>
    obtain ⟨g, made⟩ := exists_observe h (numbered.built f hf) n evidence
    refine ⟨g, n + 1, fun k => k = g ∨ nodes k, ?_, projected_observe made,
      numbered.observe hf within made, fun k => .inr, .inl rfl⟩
    rw [answer_bind_of_ok (answer_nextNumber n), made, answer_ofModel_ok]
  next none_observed =>
    refine ⟨f, n, nodes, rfl, projected_self fun id hid => ?_, numbered, fun _ => id, hf⟩
    by_contra assigned
    exact none_observed (List.any_eq_true.2 ⟨id, hid, by simpa using assigned⟩)

/-- Filling evidence in always succeeds. -/
theorem project_spec (h : d.WellFormed) {evidence : Slots} (within : evidence.Within d.vars)
    {nodes : Factor α → Prop} {n : Nat} {fs : List (Factor α)} (listed : d.Listed nodes n fs) :
    ∃ gs m nodes', answer (project fs evidence) n = (.ok gs, m) ∧
      List.Forall₂ (Projected evidence) fs gs ∧ d.Listed nodes' m gs ∧ ∀ k, nodes k → nodes' k := by
  unfold project
  induction fs generalizing n nodes with
  | nil => exact ⟨[], n, nodes, rfl, .nil, ⟨listed.toNumbered, by simp⟩, fun _ => id⟩
  | cons f rest ih =>
    obtain ⟨g, m, nodes', hg, projected, numbered, grows, hmem⟩ :=
      projectOne_spec h within listed.toNumbered (listed.members f List.mem_cons_self)
    obtain ⟨gs, l, nodes'', hgs, all, listed', grows'⟩ := ih
      ⟨numbered, fun k hk => grows k (listed.members k (List.mem_cons_of_mem _ hk))⟩
    refine ⟨g :: gs, l, nodes'', ?_, .cons projected all, ⟨listed'.toNumbered, ?_⟩,
      fun k hk => grows' k (grows k hk)⟩
    · rw [List.mapM_cons, answer_bind_of_ok hg, answer_bind_of_ok hgs]
      rfl
    · exact List.forall_mem_cons.2 ⟨grows' g hmem, listed'.members⟩

/-! ## Stages -/

/-- The factors at some point of an elimination. Only live variables occur, and every live chance
variable does; at most one factor carries the utility, and decisions occur there only. -/
structure Stage (d : Diagram α) (live : VarId → Prop) (carriers : Nat) (nodes : Factor α → Prop)
    (next : Nat) (fs : List (Factor α)) : Prop extends Listed d nodes next fs where
  live_of_mem : ∀ f ∈ fs, ∀ id ∈ f.scope.ids, live id
  held : ∀ v ∈ d.vars, v.kind = .chance → live v.id → ∃ f ∈ fs, v.id ∈ f.scope.ids
  carried : fs.countP (·.carriesUtility) = carriers
  atMostOne : carriers ≤ 1
  chance : ∀ f ∈ fs, f.carriesUtility = false → ∀ v ∈ f.scope.vars, v.kind = .chance

variable {live : VarId → Prop} {carriers : Nat} {nodes : Factor α → Prop}

/-- A factor that mentions a decision carries the utility. -/
theorem Stage.carries_of_mem (h : d.WellFormed) (stage : d.Stage live carriers nodes n fs)
    {v : Variable} (hv : v ∈ d.vars) (decision : v.kind = .decision) {f : Factor α} (hf : f ∈ fs)
    (hm : v.id ∈ f.scope.ids) : f.carriesUtility = true := by
  by_contra none_carried
  obtain ⟨u, hu, e⟩ := Scope.mem_ids.1 hm
  have chance := stage.chance f hf (by simpa using none_carried) u hu
  have built := stage.built f (stage.members f hf)
  rw [h.inj u (built.mem_vars u hu) v hv e, decision] at chance
  cases chance

omit [Scalar α] in
/-- Only one factor carries the utility. -/
theorem Stage.carrier_unique (stage : d.Stage live carriers nodes n fs) {f g : Factor α}
    (hf : f ∈ fs) (hg : g ∈ fs) (carries : f.carriesUtility = true)
    (carries' : g.carriesUtility = true) : f = g := by
  have few : (fs.filter (·.carriesUtility)).length ≤ 1 := by
    rw [← List.countP_eq_length_filter, stage.carried]
    exact stage.atMostOne
  have hf := List.mem_filter.2 ⟨hf, carries⟩
  have hg := List.mem_filter.2 ⟨hg, carries'⟩
  rcases l : fs.filter (·.carriesUtility) with - | ⟨c, - | ⟨c', rest⟩⟩
  · rw [l] at hf
    cases hf
  · rw [l, List.mem_singleton] at hf hg
    rw [hf, hg]
  · rw [l] at few
    simp at few

/-- At most one factor mentions a decision. -/
theorem Stage.mentioning_decision (h : d.WellFormed) (stage : d.Stage live carriers nodes n fs)
    {v : Variable} (hv : v ∈ d.vars) (decision : v.kind = .decision) :
    (fs.filter (·.mentions v.id)).length ≤ 1 := by
  rw [← List.countP_eq_length_filter]
  refine le_trans (List.countP_mono_left fun f hf hm => ?_) (stage.carried ▸ stage.atMostOne)
  exact stage.carries_of_mem h hv decision hf (mentions_iff.1 hm)

/-- What is live without one variable and then without others. -/
theorem live_cons (live : VarId → Prop) (v : Variable) (rest : List Variable) :
    (fun id => (live id ∧ id ≠ v.id) ∧ id ∉ rest.map (·.id)) =
      fun id => live id ∧ id ∉ (v :: rest).map (·.id) := by
  funext id
  rw [List.map_cons, List.mem_cons, not_or, and_assoc]

omit [Scalar α] in
/-- A variable that no factor mentions can be passed over. -/
theorem Stage.skip (stage : d.Stage live carriers nodes n fs) {v : Variable}
    (none_left : ∀ f ∈ fs, v.id ∉ f.scope.ids) :
    d.Stage (fun id => live id ∧ id ≠ v.id) carriers nodes n fs :=
  { stage with
    live_of_mem := fun f hf id hid =>
      ⟨stage.live_of_mem f hf id hid, fun e => none_left f hf (e ▸ hid)⟩
    held := fun u hu chance hl => stage.held u hu chance hl.1 }

omit [Scalar α] in
/-- One factor for those that mention a variable leads to a stage without the variable. -/
theorem Stage.merge (stage : d.Stage live carriers nodes n fs) {v : Variable} {g : Factor α}
    (merged : Merged v.id fs gs g) {nodes' : Factor α → Prop}
    (numbered : Factor.Numbered d.vars nodes' m) (grows : ∀ k, nodes k → nodes' k) (hg : nodes' g) :
    d.Stage (fun id => live id ∧ id ≠ v.id) carriers nodes' m gs where
  toNumbered := numbered
  members f hf := by
    rcases merged.mem.1 hf with ⟨hf, -⟩ | rfl
    · exact grows f (stage.members f hf)
    · exact hg
  live_of_mem f hf id hid := by
    rcases merged.mem.1 hf with ⟨hf, away⟩ | rfl
    · exact ⟨stage.live_of_mem f hf id hid, fun e => away (e ▸ hid)⟩
    · obtain ⟨⟨part, hp, -, hid⟩, ne⟩ := (merged.mem_ids id).1 hid
      exact ⟨stage.live_of_mem part hp id hid, ne⟩
  held u hu chance hl := by
    obtain ⟨f, hf, hm⟩ := stage.held u hu chance hl.1
    by_cases mentioned : v.id ∈ f.scope.ids
    · exact ⟨g, merged.mem.2 (.inr rfl), (merged.mem_ids _).2 ⟨⟨f, hf, mentioned, hm⟩, hl.2⟩⟩
    · exact ⟨f, merged.mem.2 (.inl ⟨hf, mentioned⟩), hm⟩
  carried := by
    -- the new factor carries the utility if one of those that it stands for did
    have split := List.countP_eq_countP_filter_add fs (fun f => f.carriesUtility) (·.mentions v.id)
    have few : (fs.filter (·.mentions v.id)).countP (·.carriesUtility) ≤ 1 := by
      have := stage.carried
      have := stage.atMostOne
      omega
    have any : (fs.filter (·.mentions v.id)).any (·.carriesUtility) = g.carriesUtility := by
      rw [Bool.eq_iff_iff, List.any_eq_true, merged.carries]
      simp only [List.mem_filter, mentions_iff, and_assoc]
    rw [← stage.carried, merged.replaced, List.countP_append, split, Nat.add_comm, countP_eq_any few,
      List.countP_singleton, List.countP_singleton, any]
    simp
  atMostOne := stage.atMostOne
  chance f hf none_carried u hu := by
    rcases merged.mem.1 hf with ⟨hf, -⟩ | rfl
    · exact stage.chance f hf none_carried u hu
    · obtain ⟨⟨part, hp, mentioned, hid⟩, -⟩ := (merged.mem_ids u.id).1 (Scope.mem_ids.2 ⟨u, hu, rfl⟩)
      obtain ⟨w, hw, e⟩ := Scope.mem_ids.1 hid
      have plain : part.carriesUtility = false := by
        by_contra carries
        rw [merged.carries.2 ⟨part, hp, mentioned, by simpa using carries⟩] at none_carried
        cases none_carried
      have same := stage.inj w ((stage.built part (stage.members part hp)).mem_vars w hw) u
        ((numbered.built _ hg).mem_vars u hu) e
      exact same ▸ stage.chance part hp plain w hw

omit [Scalar α] in
/-- A sum replaces the factors that mention its variable. -/
theorem Stage.eliminate (stage : d.Stage live carriers nodes n fs) {v : Variable}
    (hv : v ∈ d.vars) (run : answer (eliminate fs v) n = (.ok gs, m)) :
    ∃ nodes', d.Stage (fun id => live id ∧ id ≠ v.id) carriers nodes' m gs ∧
      ∀ k, nodes k → nodes' k := by
  rcases eliminate_cases run with ⟨none_left, rfl, rfl⟩ | ⟨mentioned, rfl, sum, made, rfl⟩
  · exact ⟨nodes, stage.skip none_left, fun _ => id⟩
  · have inside : ∀ f ∈ fs.filter (·.mentions v.id), nodes f := fun f hf =>
      stage.members f (List.mem_of_mem_filter hf)
    exact ⟨_, stage.merge (merged_sum mentioned made) (stage.toNumbered.sumOut hv inside made)
      (fun k => .inr) (.inl rfl), fun k => .inr⟩

omit [Scalar α] in
/-- A maximum replaces the carrier of the utility. -/
theorem Stage.maximise {state state' : Elimination α}
    (stage : d.Stage live carriers nodes n state.factors) {v : Variable} (hv : v ∈ d.vars)
    (run : answer (maximise state v) n = (.ok state', m)) :
    ∃ nodes', d.Stage (fun id => live id ∧ id ≠ v.id) carriers nodes' m state'.factors ∧
      (∀ k, nodes k → nodes' k) ∧ ∃ best, state'.rules = state.rules ++ [⟨v, best⟩] ∧
        ∀ f ∈ best, nodes' f := by
  rcases maximise_cases run with ⟨none_left, rfl, rfl⟩ | ⟨rfl, base, best, one, -, made, rfl⟩
  · exact ⟨nodes, stage.skip none_left, fun _ => id, none, rfl, by simp⟩
  · have hbase := stage.members base ((mentioning_one one).2 rfl).1
    refine ⟨_, stage.merge (merged_max one made) (stage.toNumbered.maxOut hv hbase made) (fun k => .inr)
      (.inl rfl), fun k => .inr, some best, rfl, ?_⟩
    rintro f ⟨⟩
    exact .inl rfl

/-- A decision can be maximised out exactly when the factors that mention it depend on nothing but it
and its parents. -/
theorem exists_maximise (h : d.WellFormed) {state : Elimination α}
    (stage : d.Stage live carriers nodes n state.factors) {v : Variable} (hv : v ∈ d.vars)
    (decision : v.kind = .decision)
    (inside : ∀ f ∈ state.factors, v.id ∈ f.scope.ids → ∀ id ∈ f.scope.ids, id = v.id ∨ id ∈ v.parents) :
    ∃ state' m, answer (maximise state v) n = (.ok state', m) := by
  have few := stage.mentioning_decision h hv decision
  unfold Diagram.maximise
  simp only [List.partition_eq_filter_filter]
  split
  next => exact ⟨_, _, rfl⟩
  next base one =>
    obtain ⟨hbase, mentions⟩ := (mentioning_one one).2 rfl
    have none_outside : base.scope.vars.find? (fun u => u.id != v.id && !v.parents.contains u.id) =
        none :=
      firstOutside_eq_none.2 fun u hu => inside base hbase mentions u.id (Scope.mem_ids.2 ⟨u, hu, rfl⟩)
    rw [none_outside]
    obtain ⟨scope, hs⟩ := Scope.exists_without base.scope v.id
      fun u hu => h.card_pos ((stage.built base (stage.members base hbase)).mem_vars u hu)
    obtain ⟨best, made⟩ : ∃ best, Factor.maxOut n v base = .ok best :=
      ⟨_, Factor.maxOut_eq_ok.2 ⟨scope, hs, rfl⟩⟩
    refine ⟨⟨state.factors.filter (!·.mentions v.id) ++ [best], state.rules ++ [⟨v, some best⟩]⟩,
      n + 1, ?_⟩
    simp only
    rw [answer_bind_of_ok (answer_nextNumber n), made, answer_bind_of_ok (answer_ofModel_ok _ _)]
    rfl
  next empty single =>
    -- two factors would mention the decision
    cases l : state.factors.filter (·.mentions v.id) with
    | nil => exact absurd l empty
    | cons f rest =>
      cases rest with
      | nil => exact absurd l (single f)
      | cons g rest => rw [l] at few; simp at few

omit [Scalar α] in
theorem maximise_of_outside {state : Elimination α} {v u : Variable} {base : Factor α}
    (one : state.factors.filter (·.mentions v.id) = [base]) (outside : firstOutside v base = some u) :
    answer (Diagram.maximise state v) n =
      (.error (.illegalOrder v.name (.outside base.label u.name)), n) := by
  unfold Diagram.maximise
  unfold firstOutside at outside
  simp only [List.partition_eq_filter_filter, one, outside]
  rfl

/-- When a decision cannot be maximised out, the order is refused, for the first variable outside of what
the decision observes in the one factor that mentions it. -/
theorem maximise_error (h : d.WellFormed) {state : Elimination α}
    (stage : d.Stage live carriers nodes n state.factors) {v : Variable} (hv : v ∈ d.vars)
    (decision : v.kind = .decision) {e : InferenceError}
    (fails : answer (Diagram.maximise state v) n = (.error e, m)) :
    ∃ base u, state.factors.filter (·.mentions v.id) = [base] ∧ firstOutside v base = some u ∧
      e = .illegalOrder v.name (.outside base.label u.name) := by
  have few := stage.mentioning_decision h hv decision
  rcases one : state.factors.filter (·.mentions v.id) with - | ⟨base, - | ⟨other, rest⟩⟩
  · have none_left := mentioning_isEmpty.1 (List.isEmpty_iff.2 one)
    obtain ⟨_, _, done⟩ := exists_maximise h stage hv decision fun f hf hm => absurd hm (none_left f hf)
    rw [done] at fails
    cases fails
  · rcases outside : firstOutside v base with - | u
    · have observed : ∀ f ∈ state.factors, v.id ∈ f.scope.ids → ∀ id ∈ f.scope.ids,
          id = v.id ∨ id ∈ v.parents := by
        intro f hf hm id hid
        obtain rfl := (mentioning_one one).1 ⟨hf, hm⟩
        obtain ⟨u, hu, rfl⟩ := Scope.mem_ids.1 hid
        exact firstOutside_eq_none.1 outside u hu
      obtain ⟨_, _, done⟩ := exists_maximise h stage hv decision observed
      rw [done] at fails
      cases fails
    · rw [maximise_of_outside one outside] at fails
      cases fails
      exact ⟨base, u, one, outside, rfl⟩
  · rw [one] at few
    simp at few

omit [Scalar α] in
/-- Summing a variable out succeeds where the others in the factors that mention it fit together. -/
theorem exists_eliminate_of_fits {fs : List (Factor α)} {v : Variable} {vars : List Variable}
    (sub : ∀ f ∈ fs, v.id ∈ f.scope.ids → ∀ u ∈ f.scope.vars, u.id ≠ v.id → u ∈ vars)
    (pos : ∀ u ∈ vars, 0 < u.card) (fits : MixedRadix.size (Scope.bases vars) < MixedRadix.indexLimit)
    (n : Nat) : ∃ gs m, answer (eliminate fs v) n = (.ok gs, m) := by
  unfold eliminate
  simp only [List.partition_eq_filter_filter]
  split
  next => exact ⟨_, _, rfl⟩
  next =>
    have inside : ∀ part ∈ (fs.filter (·.mentions v.id)).map (·.scope), ∀ u ∈ part.vars,
        u.id ∉ [v.id] → u ∈ vars := by
      intro part hp u hu ne
      obtain ⟨f, hf, rfl⟩ := List.mem_map.1 hp
      obtain ⟨hf, mentions⟩ := List.mem_filter.1 hf
      exact sub f hf (mentions_iff.1 mentions) u hu (by simpa using ne)
    obtain ⟨scope, hs⟩ := Scope.exists_union inside pos fits
    obtain ⟨sum, made⟩ : ∃ sum, Factor.sumOut n v (fs.filter (·.mentions v.id)) = .ok sum :=
      ⟨_, Factor.sumOut_eq_ok.2 ⟨scope, hs, rfl⟩⟩
    refine ⟨fs.filter (!·.mentions v.id) ++ [sum], n + 1, ?_⟩
    rw [answer_bind_of_ok (answer_nextNumber n), made, answer_bind_of_ok (answer_ofModel_ok _ _)]
    rfl

/-- Where all variables fit together, summing out succeeds. -/
theorem exists_eliminate (h : d.WellFormed) (fits : d.Fits) {fs : List (Factor α)}
    (built : ∀ f ∈ fs, Factor.Built d.vars f) (v : Variable) (n : Nat) :
    ∃ gs m, answer (eliminate fs v) n = (.ok gs, m) :=
  exists_eliminate_of_fits (fun f hf _ u hu _ => (built f hf).mem_vars u hu) (fun _ hu => h.card_pos hu)
    fits n

omit [Scalar α] in
/-- Summing a variable out can only lead to a sum that is too large. -/
theorem eliminate_error {fs : List (Factor α)} {v : Variable} {e : InferenceError}
    (fails : answer (eliminate fs v) n = (.error e, m)) :
    ∃ names, e = .model (.scopeTooLarge names) := by
  unfold eliminate at fails
  simp only [List.partition_eq_filter_filter] at fails
  split at fails
  next => cases fails
  next =>
    rw [answer_bind_of_ok (answer_nextNumber n)] at fails
    rcases made : Factor.sumOut n v (fs.filter (·.mentions v.id)) with e' | sum
    · rw [made, answer_bind_of_error (answer_ofModel_error e' _)] at fails
      cases fails
      rcases bind_eq_error.1 made with large | ⟨_, -, done⟩
      · obtain ⟨names, rfl⟩ := Scope.union_error large
        exact ⟨names, rfl⟩
      · cases done
    · rw [made, answer_bind_of_ok (answer_ofModel_ok sum _)] at fails
      cases fails

end Diagram

end Counsel
