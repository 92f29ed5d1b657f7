/-
The probability of evidence. It is worked out from the observed chance variables alone: evidence that
gives them the same positions has the same answer, whatever decisions it observes
(`evidenceProbability_congr`). The answer is the mass of the evidence in the joint distribution, or a
refusal of a sum that is too large, which needs variables that do not fit together
(`evidenceProbability_outcome`). One elimination covers another when each factor of the smaller one is
inside of a factor of the larger one; then the smaller one goes through if the larger one does
(`exists_covered_run`).
-/
import Counsel.Proofs.Inference.Posterior

namespace Counsel

open Outcome World

namespace Slots

/-- The assigned variables are listed in the order of their ids. -/
theorem assigned_pairwise (slots : Slots) :
    slots.assigned.Pairwise fun a b => a.1.index < b.1.index := by
  have places : slots.cells.toList.zipIdx.Pairwise fun a b => a.2 < b.2 := by
    rw [← List.pairwise_map (f := Prod.snd), List.zipIdx_map_snd]
    exact List.pairwise_lt_range'
  refine places.filterMap _ fun a b lt e he e' he' => ?_
  obtain ⟨_, -, rfl⟩ := Option.map_eq_some_iff.1 he
  obtain ⟨_, -, rfl⟩ := Option.map_eq_some_iff.1 he'
  exact lt

/-- Lists in the order of the ids are equal if they have the same members. -/
theorem eq_of_ascending {ids others : List VarId} (sorted : ids.Pairwise fun a b => a.index < b.index)
    (sorted' : others.Pairwise fun a b => a.index < b.index) (same : ∀ id, id ∈ ids ↔ id ∈ others) :
    ids = others := by
  have nodup : ∀ {l : List VarId}, (l.Pairwise fun a b => a.index < b.index) → l.Nodup := fun sorted =>
    sorted.imp fun lt e => absurd lt (by rw [e]; exact Nat.lt_irrefl _)
  exact List.Perm.eq_of_pairwise (fun a b _ _ lt gt => absurd lt (Nat.lt_asymm gt)) sorted sorted'
    ((List.perm_ext_iff_of_nodup (nodup sorted) (nodup sorted')).2 same)

theorem assigned_ids_pairwise (slots : Slots) :
    (slots.assigned.map (·.1)).Pairwise fun a b => a.index < b.index :=
  List.pairwise_map.2 slots.assigned_pairwise

end Slots

namespace Diagram

variable {α : Type} [Scalar α] {d : Diagram α} {s t evidence : Slots} {n m k l : Nat}

/-! ## Observed decisions -/

/-- Two evidences give each chance variable the same position, or none. -/
def SameChance (d : Diagram α) (s t : Slots) : Prop :=
  ∀ v ∈ d.vars, v.kind = .chance → s.get? v.id = t.get? v.id

omit [Scalar α] in
theorem SameChance.isAssigned (same : d.SameChance s t) {v : Variable} (hv : v ∈ d.vars)
    (chance : v.kind = .chance) : s.isAssigned v.id = t.isAssigned v.id := by
  rw [Slots.isAssigned, same v hv chance, Slots.isAssigned]

theorem observedChance_congr (h : d.WellFormed) (hs : d.Admits s) (ht : d.Admits t)
    (same : d.SameChance s t) : d.observedChance s = d.observedChance t := by
  have mem : ∀ {u : Slots}, d.Admits u → ∀ id, id ∈ d.observedChance u ↔
      ∃ v ∈ d.vars, v.id = id ∧ v.kind = .chance ∧ u.isAssigned v.id = true := by
    intro u admits id
    constructor
    · intro observed
      have assigned := Slots.mem_assigned_ids.1 (List.mem_of_mem_filter observed)
      obtain ⟨v, hv, rfl⟩ := admits.known id assigned
      exact ⟨v, hv, rfl, ((mem_observedChance h hv).1 observed).2, assigned⟩
    · rintro ⟨v, hv, rfl, chance, assigned⟩
      exact (mem_observedChance h hv).2 ⟨assigned, chance⟩
  have sorted : ∀ u : Slots, (d.observedChance u).Pairwise fun a b => a.index < b.index := fun u =>
    u.assigned_ids_pairwise.filter _
  -- both lists are in the order of the ids, so it is enough that they have the same members
  refine Slots.eq_of_ascending (sorted s) (sorted t) fun id => ?_
  rw [mem hs, mem ht]
  refine exists_congr fun v => and_congr_right fun hv => and_congr_right fun _ =>
    and_congr_right fun chance => ?_
  rw [same.isAssigned hv chance]

/-- The tables of marked variables are filled in alike. -/
theorem project_congr (h : d.WellFormed) (same : d.SameChance s t) {marks : Array Bool}
    (closed : ∀ v ∈ d.chanceVars, Marked marks v.id → ∀ p ∈ v.parents, Marked marks p) :
    project (d.markedFactors marks) s = project (d.markedFactors marks) t := by
  have alike : ∀ f ∈ d.markedFactors marks, projectOne s f = projectOne t f := by
    intro f hf
    have held : ∀ id ∈ f.scope.ids, s.get? id = t.get? id := by
      intro id hid
      obtain ⟨u, hu, rfl⟩ := Scope.mem_ids.1 hid
      obtain ⟨hm, chance⟩ := mem_chanceVars.1 (marked_of_markedFactors h closed hf hu).1
      exact same u hm chance
    have some_observed : f.scope.ids.any s.isAssigned = f.scope.ids.any t.isAssigned := by
      rw [Bool.eq_iff_iff, List.any_eq_true, List.any_eq_true]
      exact exists_congr fun id => and_congr_right fun hid => by
        rw [Slots.isAssigned, Slots.isAssigned, held id hid]
    have filled : ∀ n, Factor.observe n f s = Factor.observe n f t := fun n => by
      unfold Factor.observe
      rw [List.filterMap_congr fun id hid => by rw [held id hid]]
    unfold projectOne
    simp only [some_observed, filled]
  exact mapM_congr alike

theorem hidden_congr (h : d.WellFormed) (same : d.SameChance s t) (marks : Array Bool)
    (target : Option VarId) (ids : List VarId) :
    d.hidden marks s target ids = d.hidden marks t target ids := by
  rw [hidden_eq_filter h, hidden_eq_filter h]
  refine List.filter_congr fun v hv => ?_
  cases decision : v.isDecision with
  | true => simp
  | false => rw [same.isAssigned (h.mem_pick.1 hv).1 (isDecision_eq_false.1 decision)]

theorem behind_congr (h : d.WellFormed) (hs : d.Admits s) (ht : d.Admits t) (same : d.SameChance s t) :
    d.behind s = d.behind t := by
  rw [behind, observedChance_congr h hs ht same, behind]

/-- The probability of evidence does not depend on the decisions that are observed. -/
theorem evidenceProbability_congr (h : d.WellFormed) (hs : d.Admits s) (ht : d.Admits t)
    (same : d.SameChance s t) : d.evidenceProbability s = d.evidenceProbability t := by
  unfold evidenceProbability
  simp only
  rw [← observedChance, ← observedChance, ← behind, ← behind, observedChance_congr h hs ht same,
    behind_congr h hs ht same, project_congr h same (behind_closed h ht), hidden_congr h same]

/-! ## Refusals -/

/-- The probability of evidence is worked out, or a sum is too large because the variables do not fit
together. -/
theorem evidenceProbability_outcome (h : d.WellFormed) (admits : d.Admits evidence) (n : Nat) :
    (∃ p m, answer (d.evidenceProbability evidence) n = (.ok p, m)) ∨
    ¬ d.Fits ∧ ∃ names m,
      answer (d.evidenceProbability evidence) n = (.error (.model (.scopeTooLarge names)), m) := by
  by_cases none_observed : d.observedChance evidence = []
  · exact .inl ⟨1, n, evidenceProbability_of_unobserved none_observed n⟩
  · obtain ⟨gs, k, nodes, projected, -⟩ := exists_stage h admits (behind_closed h admits) n
    rcases run : answer ((d.hidden (d.behind evidence) evidence none d.chanceOrder.reverse).foldlM
      eliminate gs) k with ⟨e | left, l⟩
    · refine .inr ⟨fun fits => ?_, ?_⟩
      · obtain ⟨p, m, done⟩ := exists_evidenceProbability h fits admits n
        rw [evidenceProbability_reduced none_observed projected, answer_bind_of_error run] at done
        cases done
      · obtain ⟨_, _, _, _, _, -, -, fails⟩ := answer_foldlM_error run
        obtain ⟨names, rfl⟩ := eliminate_error fails
        exact ⟨names, l, by
          rw [evidenceProbability_reduced none_observed projected, answer_bind_of_error run]⟩
    · exact .inl ⟨_, l, evidenceProbability_of_eliminated h admits none_observed projected run⟩

/-! ## Covering -/

section Covered

variable {fs fs' gs gs' : List (Factor α)} {v : Variable}

/-- Each factor of one list is inside of a factor of another one. -/
def Covered (fs gs : List (Factor α)) : Prop :=
  ∀ f ∈ fs, ∃ g ∈ gs, ∀ id ∈ f.scope.ids, id ∈ g.scope.ids

omit [Scalar α] in
/-- After a sum, what is inside of some factor and does not mention the variable still is. -/
theorem inside_of_eliminate (run : answer (eliminate gs v) n = (.ok gs', m)) {ids : List VarId}
    (away : v.id ∉ ids) (inside : ∃ g ∈ gs, ∀ id ∈ ids, id ∈ g.scope.ids) :
    ∃ g ∈ gs', ∀ id ∈ ids, id ∈ g.scope.ids := by
  obtain ⟨g, hg, sub⟩ := inside
  rcases eliminate_cases run with ⟨-, rfl, -⟩ | ⟨mentioned, -, sum, made, rfl⟩
  · exact ⟨g, hg, sub⟩
  · have merged := merged_sum mentioned made
    by_cases mentions : v.id ∈ g.scope.ids
    · exact ⟨sum, merged.mem.2 (.inr rfl), fun id hid =>
        (merged.mem_ids id).2 ⟨⟨g, hg, mentions, sub id hid⟩, fun e => away (e ▸ hid)⟩⟩
    · exact ⟨g, merged.mem.2 (.inl ⟨hg, mentions⟩), sub⟩

omit [Scalar α] in
/-- What covered factors with the variable mention besides it, one factor mentions after the sum. -/
theorem exists_covering_sum (covered : Covered fs gs) (some_left : ∃ f ∈ fs, v.id ∈ f.scope.ids)
    (run : answer (eliminate gs v) n = (.ok gs', m)) : ∃ g ∈ gs', ∀ f ∈ fs, v.id ∈ f.scope.ids →
      ∀ id ∈ f.scope.ids, id ≠ v.id → id ∈ g.scope.ids := by
  obtain ⟨f, hf, mentions⟩ := some_left
  obtain ⟨g, hg, sub⟩ := covered f hf
  rcases eliminate_cases run with ⟨none_left, -⟩ | ⟨mentioned, -, sum, made, rfl⟩
  · exact absurd (sub _ mentions) (none_left g hg)
  · have merged := merged_sum mentioned made
    refine ⟨sum, merged.mem.2 (.inr rfl), fun f hf mentions id hid ne => ?_⟩
    obtain ⟨g, hg, sub⟩ := covered f hf
    exact (merged.mem_ids id).2 ⟨⟨g, hg, sub _ mentions, sub id hid⟩, ne⟩

omit [Scalar α] in
/-- Sums over the same variable leave covered factors covered. -/
theorem Covered.eliminate (covered : Covered fs gs) (run : answer (eliminate fs v) k = (.ok fs', l))
    (run' : answer (eliminate gs v) n = (.ok gs', m)) : Covered fs' gs' := by
  have kept : ∀ f ∈ fs, v.id ∉ f.scope.ids → ∃ g ∈ gs', ∀ id ∈ f.scope.ids, id ∈ g.scope.ids :=
    fun f hf away => inside_of_eliminate run' away (covered f hf)
  rcases eliminate_cases run with ⟨none_left, rfl, -⟩ | ⟨mentioned, -, sum, made, rfl⟩
  · exact fun f hf => kept f hf (none_left f hf)
  · have merged := merged_sum mentioned made
    intro f hf
    rcases merged.mem.1 hf with ⟨hf, away⟩ | rfl
    · exact kept f hf away
    · obtain ⟨g, hg, holds⟩ := exists_covering_sum covered mentioned run'
      refine ⟨g, hg, fun id hid => ?_⟩
      obtain ⟨⟨part, hp, mentions, hid⟩, ne⟩ := (merged.mem_ids id).1 hid
      exact holds part hp mentions id hid ne

/-- A sum is formed if it is formed for factors that cover its own. -/
theorem exists_eliminate_of_covered (h : d.WellFormed) (covered : Covered fs gs)
    (built : ∀ f ∈ fs, Factor.Built d.vars f) (built' : ∀ g ∈ gs', Factor.Built d.vars g)
    (run' : answer (Diagram.eliminate gs v) n = (.ok gs', m)) (k : Nat) :
    ∃ fs' l, answer (Diagram.eliminate fs v) k = (.ok fs', l) := by
  by_cases mentioned : ∃ f ∈ fs, v.id ∈ f.scope.ids
  · obtain ⟨g, hg, holds⟩ := exists_covering_sum covered mentioned run'
    have inside : ∀ f ∈ fs, v.id ∈ f.scope.ids → ∀ u ∈ f.scope.vars, u.id ≠ v.id →
        u ∈ g.scope.vars := by
      intro f hf mentions u hu ne
      obtain ⟨w, hw, e⟩ := Scope.mem_ids.1 (holds f hf mentions u.id (Scope.mem_ids.2 ⟨u, hu, rfl⟩) ne)
      rwa [← h.inj w ((built' g hg).mem_vars w hw) u ((built f hf).mem_vars u hu) e]
    exact exists_eliminate_of_fits inside (fun u hu => h.card_pos ((built' g hg).mem_vars u hu))
      g.scope.fits k
  · have outside : ∀ f ∈ fs, v.id ∈ f.scope.ids → ∀ u ∈ f.scope.vars, u.id ≠ v.id →
        u ∈ ([] : List Variable) := fun f hf mentions => absurd ⟨f, hf, mentions⟩ mentioned
    exact exists_eliminate_of_fits outside (fun _ hu => nomatch hu) (by decide) k

/-- An elimination of some of the variables goes through on covered factors, if that of all of them goes
through on the factors that cover them and the others do not occur. -/
theorem exists_covered_run (h : d.WellFormed) {hs : List Variable} (sub : ∀ u ∈ hs, u ∈ d.vars)
    {keep : Variable → Bool} {live live' : VarId → Prop} {carriers carriers' : Nat}
    {nodes nodes' : Factor α → Prop} (away : ∀ u ∈ hs, keep u = false → ¬ live u.id)
    (stage : d.Stage live carriers nodes k fs) (stage' : d.Stage live' carriers' nodes' n gs)
    (covered : Covered fs gs) (run' : answer (hs.foldlM Diagram.eliminate gs) n = (.ok gs', m)) :
    ∃ fs' l, answer ((hs.filter keep).foldlM Diagram.eliminate fs) k = (.ok fs', l) := by
  -- both lists stay stages, and the first stays covered by the second
  induction hs generalizing live live' nodes nodes' k n fs gs with
  | nil => exact ⟨fs, k, rfl⟩
  | cons v rest ih =>
    rw [List.foldlM_cons, answer_bind_ok] at run'
    obtain ⟨mid', j', first', run'⟩ := run'
    have hrest : ∀ u ∈ rest, u ∈ d.vars := fun u hu => sub u (List.mem_cons_of_mem _ hu)
    obtain ⟨_, next', -⟩ := stage'.eliminate (sub v List.mem_cons_self) first'
    cases kept : keep v with
    | true =>
      obtain ⟨mid, j, first⟩ := exists_eliminate_of_covered h covered
        (fun f hf => stage.built f (stage.members f hf)) (fun g hg => next'.built g (next'.members g hg))
        first' k
      obtain ⟨_, next, -⟩ := stage.eliminate (sub v List.mem_cons_self) first
      have away' : ∀ u ∈ rest, keep u = false → ¬ (live u.id ∧ u.id ≠ v.id) := fun u hu dropped hl =>
        away u (List.mem_cons_of_mem _ hu) dropped hl.1
      obtain ⟨fs', l, done⟩ := ih hrest away' next next' (covered.eliminate first first') run'
      refine ⟨fs', l, ?_⟩
      rw [List.filter_cons_of_pos kept, List.foldlM_cons, answer_bind_of_ok first, done]
    | false =>
      -- the factors do not mention a variable that is dropped
      have dead := away v List.mem_cons_self kept
      have still : Covered fs mid' := fun f hf => inside_of_eliminate first'
        (fun mentions => dead (stage.live_of_mem f hf _ mentions)) (covered f hf)
      rw [List.filter_cons_of_neg (by rw [kept]; exact Bool.false_ne_true)]
      exact ih hrest (fun u hu => away u (List.mem_cons_of_mem _ hu)) stage next' still run'

end Covered

end Diagram

end Counsel
