/-
What still occurs with the utility in the course of an elimination. A variable is linked to the
utility when a chain of variables that are gone leads from the carrier of the utility to it, each two
in one factor. Eliminating a variable makes one factor of those that mention it, so it joins the links
through the variable into one (`linked_step`), and after a sweep the carrier depends exactly on the
variables that were linked to it through the swept ones (`linked_sweep`). So an order is accepted only
if each decision observes what is linked to the utility when its turn comes (`informed_of_accepted`),
and a consistent order with that property is not refused (`not_refused_of_informed`).
-/
import Counsel.Proofs.Inference.Sweep

namespace Counsel.Diagram

open Outcome

variable {α : Type}

/-- A chain of variables that are gone leads from the carrier of the utility to a variable. -/
inductive Linked (fs : List (Factor α)) (gone : VarId → Prop) : VarId → Prop
  | carrier {f : Factor α} {u : VarId} :
      f ∈ fs → f.carriesUtility = true → u ∈ f.scope.ids → Linked fs gone u
  | through {f : Factor α} {w u : VarId} :
      Linked fs gone w → gone w → f ∈ fs → w ∈ f.scope.ids → u ∈ f.scope.ids → Linked fs gone u

variable {fs gs : List (Factor α)} {gone other : VarId → Prop} {u : VarId}

theorem Linked.mem (h : Linked fs gone u) : ∃ f ∈ fs, u ∈ f.scope.ids := by
  cases h with
  | carrier hf _ hu => exact ⟨_, hf, hu⟩
  | through _ _ hf _ hu => exact ⟨_, hf, hu⟩

theorem linked_of_none_gone : Linked fs (fun _ => False) u ↔
    ∃ f ∈ fs, f.carriesUtility = true ∧ u ∈ f.scope.ids := by
  constructor
  · intro h
    cases h with
    | carrier hf carries hu => exact ⟨_, hf, carries, hu⟩
    | through _ none_gone => exact none_gone.elim
  · rintro ⟨f, hf, carries, hu⟩
    exact .carrier hf carries hu

/-- A link stays where every variable on the way is gone as well. -/
theorem Linked.mono (h : Linked fs gone u)
    (sub : ∀ w, Linked fs gone w → Linked fs other w → gone w → other w) : Linked fs other u := by
  induction h with
  | carrier hf carries hu => exact .carrier hf carries hu
  | through before hg hf hw hu ih => exact .through ih (sub _ before ih hg) hf hw hu

theorem linked_congr (h : ∀ id, gone id ↔ other id) : Linked fs gone u ↔ Linked fs other u :=
  ⟨fun k => k.mono fun w _ _ => (h w).1, fun k => k.mono fun w _ _ => (h w).2⟩

/-! ## One step -/

theorem Merged.mem_new {id : VarId} {g : Factor α} (h : Merged id fs gs g) : g ∈ gs :=
  h.mem.2 (.inr rfl)

theorem Merged.stays {id : VarId} {f g : Factor α} (h : Merged id fs gs g) (hf : f ∈ fs)
    (away : id ∉ f.scope.ids) : f ∈ gs := h.mem.2 (.inl ⟨hf, away⟩)

/-- A link through the variable goes through the new factor, and a link to the variable itself becomes
a link to all that the new factor depends on. -/
theorem Merged.linked_after {id : VarId} {g : Factor α} (h : Merged id fs gs g)
    (k : Linked fs (fun k => gone k ∨ k = id) u) :
    (u ≠ id → Linked gs gone u) ∧ (u = id → ∀ x ∈ g.scope.ids, Linked gs gone x) := by
  induction k with
  | @carrier f u hf carries hu =>
    by_cases away : id ∈ f.scope.ids
    · have carries : g.carriesUtility = true := h.carries.2 ⟨f, hf, away, carries⟩
      exact ⟨fun ne => .carrier h.mem_new carries ((h.mem_ids u).2 ⟨⟨f, hf, away, hu⟩, ne⟩),
        fun _ x hx => .carrier h.mem_new carries hx⟩
    · exact ⟨fun _ => .carrier (h.stays hf away) carries hu, fun e => absurd (e ▸ hu) away⟩
  | @through f w u _ hw hf hwf hu ih =>
    have spread : id ∈ f.scope.ids → ∀ x ∈ g.scope.ids, Linked gs gone x := by
      intro away x hx
      by_cases e : w = id
      · exact ih.2 e x hx
      · have hwg := (h.mem_ids w).2 ⟨⟨f, hf, away, hwf⟩, e⟩
        exact .through (ih.1 e) (hw.resolve_right e) h.mem_new hwg hx
    by_cases away : id ∈ f.scope.ids
    · exact ⟨fun ne => spread away u ((h.mem_ids u).2 ⟨⟨f, hf, away, hu⟩, ne⟩), fun _ => spread away⟩
    · have e : w ≠ id := fun e => away (e ▸ hwf)
      exact ⟨fun _ => .through (ih.1 e) (hw.resolve_right e) (h.stays hf away) hwf hu,
        fun e => absurd (e ▸ hu) away⟩

/-- A link through the new factor was a link through the variable. -/
theorem Merged.linked_before {id : VarId} {g : Factor α} (h : Merged id fs gs g)
    (k : Linked gs gone u) : Linked fs (fun k => gone k ∨ k = id) u := by
  induction k with
  | @carrier f u hf carries hu =>
    rcases h.mem.1 hf with ⟨hf, -⟩ | rfl
    · exact .carrier hf carries hu
    · obtain ⟨f₁, hf₁, away₁, carries₁⟩ := h.carries.1 carries
      obtain ⟨⟨f₂, hf₂, away₂, hu₂⟩, -⟩ := (h.mem_ids u).1 hu
      exact .through (.carrier hf₁ carries₁ away₁) (.inr rfl) hf₂ away₂ hu₂
  | @through f w u _ hw hf hwf hu ih =>
    rcases h.mem.1 hf with ⟨hf, -⟩ | rfl
    · exact .through ih (.inl hw) hf hwf hu
    · obtain ⟨⟨f₁, hf₁, away₁, hw₁⟩, -⟩ := (h.mem_ids w).1 hwf
      obtain ⟨⟨f₂, hf₂, away₂, hu₂⟩, -⟩ := (h.mem_ids u).1 hu
      exact .through (.through ih (.inl hw) hf₁ hw₁ away₁) (.inr rfl) hf₂ away₂ hu₂

theorem Merged.linked {id : VarId} {g : Factor α} (h : Merged id fs gs g) (ne : u ≠ id) :
    Linked fs (fun k => gone k ∨ k = id) u ↔ Linked gs gone u :=
  ⟨fun k => (h.linked_after k).1 ne, h.linked_before⟩

theorem linked_of_not_mentioned {id : VarId} (h : ∀ f ∈ fs, id ∉ f.scope.ids) :
    Linked fs (fun k => gone k ∨ k = id) u ↔ Linked fs gone u := by
  constructor
  · refine fun k => k.mono fun w hw _ hg => hg.resolve_right ?_
    rintro rfl
    obtain ⟨f, hf, hm⟩ := hw.mem
    exact h f hf hm
  · exact fun k => k.mono fun w _ _ => .inl

variable {n m : Nat}

/-- Eliminating a variable keeps all links to the others. -/
theorem linked_step {v : Variable} {before after : Elimination α} (ne : u ≠ v.id)
    (run : answer (sweepOne before v) n = (.ok after, m)) :
    Linked before.factors (fun k => gone k ∨ k = v.id) u ↔ Linked after.factors gone u := by
  unfold sweepOne at run
  split at run
  next =>
    rcases maximise_cases run with ⟨none_left, -, rfl⟩ | ⟨-, base, best, one, -, made, rfl⟩
    · exact linked_of_not_mentioned none_left
    · exact (merged_max one made).linked ne
  next =>
    obtain ⟨gs, l, eliminated, made⟩ := answer_bind_ok.1 run
    cases made
    rcases eliminate_cases eliminated with ⟨none_left, rfl, -⟩ | ⟨mentioned, -, sum, made, rfl⟩
    · exact linked_of_not_mentioned none_left
    · exact (merged_sum mentioned made).linked ne

/-- After a sweep the carrier of the utility depends on what was linked to it through the swept
variables. -/
theorem linked_sweep {vars : List Variable} {before after : Elimination α}
    (left : u ∉ vars.map (·.id)) (run : answer (vars.foldlM sweepOne before) n = (.ok after, m)) :
    Linked before.factors (· ∈ vars.map (·.id)) u ↔
      ∃ f ∈ after.factors, f.carriesUtility = true ∧ u ∈ f.scope.ids := by
  induction vars generalizing before n with
  | nil =>
    cases run
    rw [← linked_of_none_gone]
    exact linked_congr (by simp)
  | cons v rest ih =>
    rw [List.foldlM_cons, answer_bind_ok] at run
    obtain ⟨mid, k, first, run⟩ := run
    rw [List.map_cons, List.mem_cons, not_or] at left
    rw [← ih left.2 run, ← linked_step left.1 first]
    exact linked_congr fun id => by rw [List.map_cons, List.mem_cons, or_comm]

/-! ## Orders under which decisions are informed -/

variable [Scalar α] {d : Diagram α} {nodes : Factor α → Prop} {evidence : Slots}

/-- Each decision of the utility observes what is linked to the utility when its turn comes. -/
def Informed (d : Diagram α) (evidence : Slots) (order : EliminationOrder) : Prop :=
  ∀ pre D post, d.sweepOf evidence order = pre ++ D :: post → D.kind = .decision →
    D.id ∈ d.utility.scope.ids → ∀ id, evidence.isAssigned id = false → id ∉ pre.map (·.id) →
      Linked (d.startTables evidence) (· ∈ pre.map (·.id)) id → id = D.id ∨ id ∈ D.parents

/-- Filling evidence in cuts no link between other variables. -/
theorem linked_projected (projected : List.Forall₂ (Projected evidence) fs gs)
    (free : ∀ w, gone w → evidence.isAssigned w = false) (hu : evidence.isAssigned u = false) :
    Linked gs gone u ↔ Linked fs gone u := by
  constructor
  · intro h
    clear hu
    induction h with
    | carrier hg carries hu =>
      obtain ⟨f, hf, p⟩ := forall₂_right_mem projected hg
      exact .carrier hf (p.carriesUtility ▸ carries) ((p.mem_ids _).1 hu).1
    | through _ gone hg hw hu ih =>
      obtain ⟨f, hf, p⟩ := forall₂_right_mem projected hg
      exact .through ih gone hf ((p.mem_ids _).1 hw).1 ((p.mem_ids _).1 hu).1
  · intro h
    induction h with
    | carrier hf carries hm =>
      obtain ⟨g, hg, p⟩ := forall₂_mem projected hf
      exact .carrier hg (p.carriesUtility.trans carries) ((p.mem_ids _).2 ⟨hm, hu⟩)
    | through _ gone hf hw hm ih =>
      obtain ⟨g, hg, p⟩ := forall₂_mem projected hf
      exact .through (ih (free _ gone)) gone hg ((p.mem_ids _).2 ⟨hw, free _ gone⟩)
        ((p.mem_ids _).2 ⟨hm, hu⟩)

/-- A decision occurs in no table but the utility. -/
theorem eq_utility_of_mem (h : d.WellFormed) (admits : d.Admits evidence) {f : Factor α}
    (hf : f ∈ d.startTables evidence) {D : Variable} (hD : D ∈ d.vars) (decision : D.kind = .decision)
    (hm : D.id ∈ f.scope.ids) : f = d.utility := by
  rcases List.mem_append.1 hf with hf | hf
  · obtain ⟨u, hu, e⟩ := Scope.mem_ids.1 hm
    obtain ⟨hu, -⟩ := marked_of_markedFactors h (marked_requisite_closed h admits) hf hu
    obtain ⟨hu, chance⟩ := mem_chanceVars.1 hu
    rw [h.inj u hu D hD e, decision] at chance
    cases chance
  · exact List.mem_singleton.1 hf

theorem mem_utility_of_linked (h : d.WellFormed) (admits : d.Admits evidence) {D : Variable}
    (hD : D ∈ d.vars) (decision : D.kind = .decision)
    (linked : Linked (d.startTables evidence) gone D.id) : D.id ∈ d.utility.scope.ids := by
  obtain ⟨f, hf, hm⟩ := linked.mem
  exact eq_utility_of_mem h admits hf hD decision hm ▸ hm

theorem linked_of_mem_utility (h : d.WellFormed) (hm : u ∈ d.utility.scope.ids) :
    Linked (d.startTables evidence) gone u :=
  .carrier (List.mem_append_right _ (List.mem_singleton_self _)) h.carriesUtility_utility hm

/-- When the turn of a decision comes, the carrier of the utility depends on the variables without
evidence that are linked to it through the swept ones. -/
theorem exists_turn (h : d.WellFormed) {order : EliminationOrder}
    (consistent : d.Consistent order.ids (d.requisiteChance evidence) evidence)
    (projected : List.Forall₂ (Projected evidence) (d.startTables evidence) gs)
    (stage : d.Stage (d.Active evidence) 1 nodes n gs) {pre post : List Variable} {D : Variable}
    (split : d.sweepOf evidence order = pre ++ D :: post) {state : Elimination α}
    (run : answer (pre.foldlM sweepOne ⟨gs, []⟩) n = (.ok state, m)) :
    D ∈ d.vars ∧ evidence.isAssigned D.id = false ∧ D.id ∉ pre.map (·.id) ∧
    ∃ nodes', d.Stage (fun id => d.Active evidence id ∧ id ∉ pre.map (·.id)) 1 nodes' m state.factors ∧
      ∀ f ∈ state.factors, f.carriesUtility = true → ∀ u, evidence.isAssigned u = false →
        u ∉ pre.map (·.id) →
          (u ∈ f.scope.ids ↔ Linked (d.startTables evidence) (· ∈ pre.map (·.id)) u) := by
  obtain ⟨hD, part, fresh, nodes', here⟩ := stage_at_turn h consistent stage split run
  have unobserved : ∀ w, w ∈ pre.map (·.id) → evidence.isAssigned w = false := by
    intro w hw
    obtain ⟨v, hv, rfl⟩ := List.mem_map.1 hw
    have turn : v ∈ d.sweepOf evidence order := split ▸ List.mem_append_left _ hv
    exact (takesPart_iff.1 ((mem_participants h).1 turn).2.1).1
  refine ⟨hD, (takesPart_iff.1 part).1, fresh, nodes', here, fun f hf carries u hu left => ?_⟩
  rw [← linked_projected projected unobserved hu]
  refine Iff.trans ⟨fun hm => ⟨f, hf, carries, hm⟩, ?_⟩ (linked_sweep left run).symm
  rintro ⟨g, hg, carries', hm⟩
  rwa [here.carrier_unique hf hg carries carries']

/-- Along an accepted order decisions are informed. -/
theorem informed_of_accepted (h : d.WellFormed) {order : EliminationOrder} {observations : Assignment}
    (valid : d.slotsOf observations = .ok evidence)
    (accepted : Accepted (answer (d.optimize order observations) n).1) : d.Informed evidence order := by
  intro pre D post split decision hU id hid left linked
  obtain ⟨consistent, gs, k, nodes, state, l, -, stage, projected, run, -⟩ :=
    sweep_of_accepted h valid accepted
  rw [split, List.foldlM_append, answer_bind_ok] at run
  obtain ⟨mid, j, before, run⟩ := run
  rw [List.foldlM_cons, answer_bind_ok] at run
  obtain ⟨next, i, step, -⟩ := run
  obtain ⟨-, free, fresh, nodes', here, reads⟩ := exists_turn h consistent projected stage split before
  obtain ⟨f, hf, carries⟩ : ∃ f ∈ mid.factors, f.carriesUtility = true :=
    List.countP_pos_iff.1 (by rw [here.carried]; exact Nat.one_pos)
  have hDf : D.id ∈ f.scope.ids := (reads f hf carries D.id free fresh).2 (linked_of_mem_utility h hU)
  have hidf : id ∈ f.scope.ids := (reads f hf carries id hid left).2 linked
  -- the step was taken, so the carrier depends on nothing that the decision does not observe
  unfold sweepOne at step
  rw [if_pos (isDecision_iff.2 decision)] at step
  rcases maximise_cases step with ⟨none_left, -⟩ | ⟨-, base, best, one, inside, -⟩
  · exact absurd hDf (none_left f hf)
  · obtain rfl := (mentioning_one one).1 ⟨hf, hDf⟩
    obtain ⟨u, hu, rfl⟩ := Scope.mem_ids.1 hidf
    exact inside u hu

/-- A consistent order along which decisions are informed is not refused. -/
theorem not_refused_of_informed (h : d.WellFormed) {order : EliminationOrder}
    {observations : Assignment} (valid : d.slotsOf observations = .ok evidence)
    (consistent : d.Consistent order.ids (d.requisiteChance evidence) evidence)
    (informed : d.Informed evidence order) (n : Nat) :
    ¬ Refused (answer (d.optimize order observations) n).1 ∧
      (d.Fits → Accepted (answer (d.optimize order observations) n).1) := by
  have admits := h.admits_of_slotsOf valid
  refine not_refused_of_inside h valid consistent ?_ n
  intro gs k nodes stage projected pre D post split decision state l before f hf hDf id hid
  obtain ⟨hD, -, -, nodes', here, reads⟩ := exists_turn h consistent projected stage split before
  have carries := here.carries_of_mem h hD decision hf hDf
  have linked : ∀ u ∈ f.scope.ids, evidence.isAssigned u = false ∧ u ∉ pre.map (·.id) ∧
      Linked (d.startTables evidence) (· ∈ pre.map (·.id)) u := by
    intro u hu
    obtain ⟨⟨v, -, rfl, part⟩, left⟩ := here.live_of_mem f hf u hu
    have free := (takesPart_iff.1 part).1
    exact ⟨free, left, (reads f hf carries v.id free left).1 hu⟩
  obtain ⟨hid, left, k⟩ := linked id hid
  exact informed pre D post split decision
    (mem_utility_of_linked h admits hD decision (linked D.id hDf).2.2) id hid left k

end Counsel.Diagram
