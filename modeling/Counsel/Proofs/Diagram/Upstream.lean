/-
What is upstream of some variables of a diagram that was built. The search for it takes the targets off
its stack, and the parents of all that it marks, and then ends; what it has marked are the variables
with a chain of arcs to a target. What is upstream can be used as it stands: a marked chance variable
has all that its table depends on marked too, and the requisite variables are the chance variables
upstream of the utility and the evidence (`upstream_of_build`).
-/
import Counsel.Proofs.Inference.Posterior

namespace Counsel.Diagram

variable {α : Type} [Scalar α] {d : Diagram α}

/-- A chance variable upstream of some targets has a table, over chance variables upstream of them. -/
theorem cpt_of_marked (h : d.WellFormed) {targets : List VarId}
    (known : ∀ t ∈ targets, ∃ v ∈ d.vars, v.id = t) {v : Variable} (hv : v ∈ d.vars)
    (chance : v.kind = .chance) (marked : Marked (d.ancestors targets) v.id) :
    ∃ f, d.cpt? v.id = some f ∧ ∀ id ∈ f.scope.ids, Marked (d.ancestors targets) id ∧
      ∃ u ∈ d.vars, u.id = id ∧ u.kind = .chance := by
  obtain ⟨f, -, found, cond⟩ := exists_conditional h (mem_chanceVars.2 ⟨hv, chance⟩)
  refine ⟨f, found, fun id hid => ?_⟩
  rcases (cond.mem_ids h hv).1 hid with parent | rfl
  · obtain ⟨u, hu, e, kind⟩ := h.parents v hv id parent
    refine ⟨?_, u, hu, e, kind chance⟩
    rw [marked_ancestors h known] at marked ⊢
    exact marked.parent (by rwa [h.parentsOf_eq hv])
  · exact ⟨marked, v, hv, rfl, chance⟩

omit [Scalar α] in
theorem size_unmark (vars : List Variable) (marks : Array Bool) :
    (vars.foldl (fun marks v =>
      if v.isDecision then marks.setIfInBounds v.id.index false else marks) marks).size = marks.size := by
  induction vars generalizing marks with
  | nil => rfl
  | cons v rest ih =>
    rw [List.foldl_cons, ih]
    split
    · exact Array.size_setIfInBounds
    · rfl

theorem size_requisite (h : d.WellFormed) {observed : Slots}
    (known : ∀ id, observed.isAssigned id = true → ∃ v ∈ d.vars, v.id = id) :
    (d.requisiteChance observed).size = d.vars.length :=
  (size_unmark _ _).trans (size_ancestors h (known_concerns h known))

omit [Scalar α] in
/-- What concerns a decision is in the utility or observed. -/
theorem reaches_concerns_iff {observed : Slots} {id : VarId} :
    d.Reaches (d.concerns observed) id ↔
      ∃ t, (t ∈ d.utility.scope.ids ∨ observed.isAssigned t = true) ∧
        Relation.ReflTransGen d.Arc id t := by
  have mem : ∀ t, t ∈ d.concerns observed ↔
      t ∈ d.utility.scope.ids ∨ observed.isAssigned t = true := fun t => by
    rw [concerns, List.mem_append, Slots.mem_assigned_ids]
  simp only [Reaches, mem]

/-- The search for what is upstream of some variables of a diagram ends. Only ids of variables wait on
its way, its stack is empty as soon as it has taken off the targets and the parents of all that is
marked, and then the marks are the answer. Marked are exactly the variables from which a chain of arcs
leads to a target; the tables of the chance variables among them depend on nothing else. The requisite
variables are the chance variables upstream of the utility and the observations. -/
theorem upstream_of_build {decl : Declaration α} (built : decl.build = .ok d) {targets : List VarId}
    (known : ∀ t ∈ targets, ∃ v ∈ d.vars, v.id = t) :
    (∀ n, (∀ id ∈ (d.searchAfter targets n).stack, ∃ v ∈ d.vars, v.id = id) ∧
      ((d.searchAfter targets n).stack = [] ↔
        targets.length + closedArcs (d.ancestors targets) d.vars ≤ n) ∧
      ((d.searchAfter targets n).stack = [] →
        (d.searchAfter targets n).marks = d.ancestors targets)) ∧
    (d.ancestors targets).size = d.vars.length ∧
    (∀ v ∈ d.vars, Marked (d.ancestors targets) v.id ↔
      ∃ t ∈ targets, Relation.ReflTransGen d.Arc v.id t) ∧
    (∀ v ∈ d.vars, v.kind = .chance → Marked (d.ancestors targets) v.id →
      ∃ f, d.cpt? v.id = some f ∧ ∀ id ∈ f.scope.ids, Marked (d.ancestors targets) id ∧
        ∃ u ∈ d.vars, u.id = id ∧ u.kind = .chance) ∧
    ∀ observed : Slots, (∀ id, observed.isAssigned id = true → ∃ v ∈ d.vars, v.id = id) →
      (d.requisiteChance observed).size = d.vars.length ∧
      ∀ v ∈ d.vars, Marked (d.requisiteChance observed) v.id ↔ v.kind = .chance ∧
        ∃ t, (t ∈ d.utility.scope.ids ∨ observed.isAssigned t = true) ∧
          Relation.ReflTransGen d.Arc v.id t := by
  have h := Declaration.wellFormed_of_build built
  refine ⟨fun n => ⟨(sound_after h known n).known, stack_eq_nil_iff h known, fun empty => ?_⟩,
    size_ancestors h known, fun v _ => marked_ancestors h known,
    fun v hv chance marked => cpt_of_marked h known hv chance marked, fun observed seen => ?_⟩
  · rw [searchAfter_ancestors h known empty]
  · refine ⟨size_requisite h seen, fun v hv => ?_⟩
    rw [marked_requisite h seen hv, reaches_concerns_iff]

/-- From the umbrella, asked for twice, the search goes back to the forecast and on to the weather: two
targets and two parents. -/
theorem upstream_of_umbrella :
    umbrella.build = .ok umbrellaDiagram ∧
    (∀ t ∈ [(⟨2⟩ : VarId), ⟨2⟩], ∃ v ∈ umbrellaDiagram.vars, v.id = t) ∧
    (∀ n, (umbrellaDiagram.searchAfter [⟨2⟩, ⟨2⟩] n).stack = [] ↔ 4 ≤ n) ∧
    ∃ t ∈ [(⟨2⟩ : VarId), ⟨2⟩], Relation.ReflTransGen umbrellaDiagram.Arc ⟨0⟩ t := by
  have known : ∀ t ∈ [(⟨2⟩ : VarId), ⟨2⟩], ∃ v ∈ umbrellaDiagram.vars, v.id = t := by decide +kernel
  obtain ⟨ends, -, upstream, -⟩ := upstream_of_build build_umbrella known
  have arcs : closedArcs (umbrellaDiagram.ancestors [⟨2⟩, ⟨2⟩]) umbrellaDiagram.vars = 2 := by
    decide +kernel
  refine ⟨build_umbrella, known, fun n => by rw [(ends n).2.1, arcs]; rfl, ?_⟩
  let weather : Variable := ⟨⟨0⟩, "Weather", .chance, [.text "sun", .text "rain"], []⟩
  exact (upstream weather (by decide +kernel)).1 (by unfold Marked; decide +kernel)

end Counsel.Diagram
