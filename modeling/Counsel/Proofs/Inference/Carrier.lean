/-
The factor that carries the utility. From the start of an elimination to its end there is one, and no
other factor mentions a decision (`carried_along`); at the end no factor has variables left. So once an
order has passed its check, it is refused only where a decision comes up while the factor that mentions
it depends on a variable that the decision does not observe (`illegalOrder_iff`), and no order is refused
for several factors with a decision, for free variables or for several utilities
(`refusals_of_optimize`).
-/
import Counsel.Proofs.Inference.Idle
import Counsel.Proofs.Inference.Posterior

namespace Counsel.Diagram

open Outcome

variable {α : Type} [Scalar α] {d : Diagram α} {evidence : Slots} {live : VarId → Prop}
  {nodes : Factor α → Prop} {n m : Nat}

/-- One factor carries the utility, and no other one mentions a decision. -/
def Carried (d : Diagram α) (fs : List (Factor α)) : Prop :=
  ∃ carrier, fs.filter (·.carriesUtility) = [carrier] ∧
    ∀ f ∈ fs, ∀ D ∈ d.vars, D.kind = .decision → f.mentions D.id = true → f = carrier

theorem Stage.isCarried (h : d.WellFormed) {fs : List (Factor α)} (stage : d.Stage live 1 nodes n fs) :
    d.Carried fs := by
  obtain ⟨carrier, one⟩ := List.length_eq_one_iff.1
    (List.countP_eq_length_filter.symm.trans stage.carried)
  refine ⟨carrier, one, fun f hf D hD decision mentions => ?_⟩
  have carries := stage.carries_of_mem h hD decision hf (mentions_iff.1 mentions)
  exact List.mem_singleton.1 (one ▸ List.mem_filter.2 ⟨hf, carries⟩)

/-- The state of an elimination that has come some way along an order. -/
def Midway (d : Diagram α) (evidence : Slots) (n : Nat) (front : List VarId) (state : Elimination α)
    (m : Nat) : Prop :=
  ∃ gs k, answer (project (d.startTables evidence) evidence) n = (.ok gs, k) ∧
    answer (front.foldlM (d.eliminateNext (d.requisiteChance evidence) evidence) ⟨gs, []⟩) k =
      (.ok state, m)

/-- What an elimination has come to is a stage without the participants that it has passed. -/
theorem Midway.swept (h : d.WellFormed) (admits : d.Admits evidence) {front : List VarId}
    {state : Elimination α} (midway : d.Midway evidence n front state m) :
    ∃ start nodes, d.Swept (d.Active evidence)
      (d.participants (d.requisiteChance evidence) evidence front) nodes m start state := by
  obtain ⟨gs, k, filled, run⟩ := midway
  obtain ⟨_, _, nodes, filled', stage, -⟩ := exists_start h admits n
  cases filled.symm.trans filled'
  have stage : d.Stage (d.Active evidence) 1 nodes k (⟨gs, []⟩ : Elimination α).factors := stage
  rw [foldlM_eliminateNext] at run
  obtain ⟨nodes', swept, -⟩ := stage_sweep (fun v hv => ((mem_participants h).1 hv).1) stage run
  exact ⟨_, nodes', swept⟩

/-- At every step one factor carries the utility and no other one mentions a decision; at the end of a
consistent order the factors have no variables left. -/
theorem carried_along (h : d.WellFormed) (admits : d.Admits evidence) {order : EliminationOrder}
    (consistent : d.Consistent order.ids (d.requisiteChance evidence) evidence) {front back : List VarId}
    (split : order.ids = front ++ back) {state : Elimination α}
    (midway : d.Midway evidence n front state m) :
    d.Carried state.factors ∧ (back = [] → ∀ f ∈ state.factors, f.scope.vars = []) := by
  obtain ⟨start, nodes, swept⟩ := midway.swept h admits
  refine ⟨swept.isCarried h, ?_⟩
  rintro rfl
  rw [List.append_nil] at split
  exact (Swept.residue h consistent (split ▸ swept)).1

/-! ## Refusals -/

/-- When an open decision comes up in an order, the one factor that mentions it depends on a variable
that the decision does not observe. -/
structure Obstructed (d : Diagram α) (evidence : Slots) (order : EliminationOrder) (n : Nat)
    (D : Variable) (base : Factor α) (u : Variable) : Prop where
  decision : d.Open evidence D
  turn : ∃ front back state m, order.ids = front ++ D.id :: back ∧ d.Midway evidence n front state m ∧
    state.factors.filter (·.mentions D.id) = [base]
  outside : firstOutside D base = some u

variable {order : EliminationOrder} {observations : Assignment}

/-- An order that does not pass its check is refused for what the check finds. -/
theorem optimize_of_unchecked (valid : d.slotsOf observations = .ok evidence) {e : InferenceError}
    (unchecked : d.checkOrder order.ids (d.requisiteChance evidence) evidence = .error e) :
    answer (d.optimize order observations) n = (.error e, n) := by
  unfold optimize
  rw [valid, answer_bind_of_ok (answer_ofModel_ok evidence n)]
  simp only
  rw [unchecked, answer_bind_of_error (answer_liftExcept (.error _) n)]

/-- An order that passes its check is refused exactly where a decision is obstructed. -/
theorem illegalOrder_iff (h : d.WellFormed) (valid : d.slotsOf observations = .ok evidence)
    (consistent : d.Consistent order.ids (d.requisiteChance evidence) evidence) {place : String}
    {fault : OrderFault} :
    (answer (d.optimize order observations) n).1 = .error (.illegalOrder place fault) ↔
      ∃ D base u, d.Obstructed evidence order n D base u ∧ place = D.name ∧
        fault = .outside base.label u.name := by
  obtain ⟨gs, k, nodes, filled, stage, -, run⟩ := optimize_eq_sweep h valid consistent n
  have sub := @sweepOf_sub _ _ d evidence h order
  rw [run, answer_bind]
  constructor
  · intro refused
    rcases swept : answer ((d.sweepOf evidence order).foldlM sweepOne ⟨gs, []⟩) k with ⟨e | state, l⟩
    · rw [swept] at refused
      cases refused
      -- an elimination refuses nothing, so a decision came up that could not be maximised out
      obtain ⟨pre, v, post, mid, j, nodes', split, hv, ran, here, stopped⟩ := sweep_stops h sub stage swept
      rcases stopped with ⟨decision, base, u, one, outside, same⟩ | ⟨-, fails⟩
      · cases same
        obtain ⟨front, back, place, rfl⟩ := participants_split h split
        have part := ((mem_participants h).1 (split ▸ by simp : v ∈ d.sweepOf evidence order)).2.1
        refine ⟨v, base, u, ⟨⟨hv, decision, (takesPart_iff.1 part).1⟩, ?_, outside⟩, rfl, rfl⟩
        exact ⟨front, back, mid, j, place, ⟨gs, k, filled, by rwa [foldlM_eliminateNext]⟩, one⟩
      · obtain ⟨names, large⟩ := eliminate_error fails
        cases large
    · rw [swept] at refused
      have legal : Avoids (· = .illegalOrder place fault) (d.conclude evidence state) :=
        avoids_conclude (by simp) (by simp) state
      exact absurd rfl (legal l _ refused)
  · rintro ⟨D, base, u, ⟨isOpen, ⟨front, back, state, m, split, ⟨gs', k', filled', ran⟩, one⟩, outside⟩,
      rfl, rfl⟩
    cases filled.symm.trans filled'
    have fails : answer (d.eliminateNext (d.requisiteChance evidence) evidence state D.id) m =
        (.error (.illegalOrder D.name (.outside base.label u.name)), m) := by
      unfold eliminateNext
      rw [h.byId?_eq_some.2 ⟨isOpen.mem, rfl⟩]
      simp only [isOpen.part, isDecision_iff.2 isOpen.decision, Bool.not_true, Bool.false_eq_true,
        if_false, if_true]
      exact maximise_of_outside one outside
    rw [← foldlM_eliminateNext, split, List.foldlM_append, answer_bind_of_ok ran, List.foldlM_cons,
      answer_bind_of_error fails]

/-- Any refusal of an order is for one of its entries or for a variable that a decision does not
observe. -/
theorem fault_of_refused (h : d.WellFormed) {place : String} {fault : OrderFault}
    (refused : (answer (d.optimize order observations) n).1 = .error (.illegalOrder place fault)) :
    OfEntries fault ∨ ∃ label name, fault = .outside label name := by
  rcases valid : d.slotsOf observations with e | evidence
  · unfold optimize at refused
    rw [valid, answer_bind_of_error (answer_ofModel_error e n)] at refused
    cases refused
  · rcases checked : d.checkOrder order.ids (d.requisiteChance evidence) evidence with e | ⟨⟨⟩⟩
    · rw [optimize_of_unchecked valid checked] at refused
      obtain ⟨place', fault', rfl, entry⟩ := checkOrder_error checked
      cases refused
      exact .inl entry
    · obtain ⟨D, base, u, -, -, rfl⟩ := (illegalOrder_iff h valid ((checkOrder_eq_ok h).1 checked)).1 refused
      exact .inr ⟨_, _, rfl⟩

/-- An order that does not pass its check is refused for what the check finds. With one that passes, an
elimination starts, at every step exactly one factor carries the utility and no other mentions a
decision, and at the end no factor has variables left; the order is refused exactly where a decision
comes up while the factor that mentions it depends on a variable that the decision does not observe. So
several factors with a decision, free variables and other than one utility are never found. -/
theorem refusals_of_optimize {decl : Declaration α} (built : decl.build = .ok d)
    (order : EliminationOrder) (observations : Assignment) (n : Nat) :
    (∀ evidence, d.slotsOf observations = .ok evidence →
      (∀ e, d.checkOrder order.ids (d.requisiteChance evidence) evidence = .error e →
        (answer (d.optimize order observations) n).1 = .error e) ∧
      (d.checkOrder order.ids (d.requisiteChance evidence) evidence = .ok () →
        (∃ gs k, d.Midway evidence n [] ⟨gs, []⟩ k) ∧
        (∀ front back state m, order.ids = front ++ back → d.Midway evidence n front state m →
          d.Carried state.factors ∧ (back = [] → ∀ f ∈ state.factors, f.scope.vars = [])) ∧
        ∀ place fault,
          (answer (d.optimize order observations) n).1 = .error (.illegalOrder place fault) ↔
            ∃ D base u, d.Obstructed evidence order n D base u ∧ place = D.name ∧
              fault = .outside base.label u.name)) ∧
    ∀ place fault,
      (answer (d.optimize order observations) n).1 = .error (.illegalOrder place fault) →
      (∀ count, fault ≠ .mentionedBy count) ∧ (∀ label, fault ≠ .freeVariables label) ∧
        ∀ count, fault ≠ .utilityCarriers count := by
  have h := Declaration.wellFormed_of_build built
  refine ⟨fun evidence valid => ⟨fun e unchecked => by rw [optimize_of_unchecked valid unchecked],
    fun checked => ?_⟩, fun place fault refused => ?_⟩
  · have consistent := (checkOrder_eq_ok h).1 checked
    have admits := h.admits_of_slotsOf valid
    obtain ⟨gs, k, -, filled, -⟩ := exists_start h admits n
    exact ⟨⟨gs, k, gs, k, filled, rfl⟩,
      fun front back state m split midway => carried_along h admits consistent split midway,
      fun place fault => illegalOrder_iff h valid consistent⟩
  · rcases fault_of_refused h refused with entry | ⟨label, name, rfl⟩
    · refine ⟨?_, ?_, ?_⟩ <;> rintro _ rfl <;> exact entry
    · simp

/-- To take the umbrella before the weather is summed out is an order that passes its check, but the
weather is not observed. -/
theorem refusals_umbrella : ∃ D base u,
    umbrellaDiagram.Obstructed Slots.empty ⟨[⟨2⟩, ⟨0⟩, ⟨1⟩]⟩ 2 D base u ∧ D.name = "Umbrella" ∧
      base.label = ⟨2, ["Weather", "Umbrella"]⟩ ∧ u.name = "Weather" := by
  obtain ⟨along, -⟩ := refusals_of_optimize build_umbrella ⟨[⟨2⟩, ⟨0⟩, ⟨1⟩]⟩ NameMap.empty 2
  obtain ⟨-, -, illegal⟩ := (along Slots.empty rfl).2 (by decide +kernel)
  have stopped : (match (answer (umbrellaDiagram.optimize ⟨[⟨2⟩, ⟨0⟩, ⟨1⟩]⟩ NameMap.empty) 2).1 with
      | .error (.illegalOrder place fault) => some (place, fault)
      | _ => none) = some ("Umbrella", .outside ⟨2, ["Weather", "Umbrella"]⟩ "Weather") := by
    decide +kernel
  split at stopped
  next place fault refused =>
    obtain ⟨rfl, rfl⟩ := Prod.mk.inj (Option.some.inj stopped)
    obtain ⟨D, base, u, obstructed, named, outside⟩ := (illegal _ _).1 refused
    obtain ⟨labelled, observed⟩ := OrderFault.outside.inj outside
    exact ⟨D, base, u, obstructed, named.symm, labelled.symm, observed.symm⟩
  next => cases stopped

end Counsel.Diagram
