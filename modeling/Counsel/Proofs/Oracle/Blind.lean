/-
An oracle knows no more than its decisions observe. What following the rules of a solution comes to at a
decision depends on the chance variables that it or an earlier decision observes (`follow_congr`,
`Ruled.follow_eq`). So an oracle takes a decision the same way in all states that agree on these, whatever
it was asked before (`act_eq_of_informed`).
-/
import Counsel.Proofs.Experiment.Oracle

namespace Counsel

open Outcome EliminationOrder

variable {α : Type} [Scalar α]

namespace Solution

/-- Worlds that agree on what the rules read, but for the decisions taken before, agree on it and on the
decisions after following the rules. -/
theorem follow_congr {rules : List (DecisionRule α)} {S : VarId → Prop}
    (tells : ∀ rule ∈ rules, ∀ x y : World,
      (∀ f ∈ rule.factor, ∀ id ∈ f.scope.ids, x id = y id) → rule.position x = rule.position y)
    (reads : ∀ pre rule post, rules = pre ++ rule :: post →
      ∀ f ∈ rule.factor, ∀ id ∈ f.scope.ids, S id ∨ id ∈ pre.map (·.decision.id))
    {x y : World} (agree : ∀ id, S id → x id = y id) {id : VarId}
    (hid : S id ∨ id ∈ rules.map (·.decision.id)) : follow rules x id = follow rules y id := by
  induction rules generalizing S x y with
  | nil => exact agree id (hid.resolve_right (by simp))
  | cons rule rest ih =>
    have same : rule.position x = rule.position y :=
      tells rule List.mem_cons_self x y fun f hf id hid =>
        agree id ((reads [] rule rest rfl f hf id hid).resolve_right (by simp))
    rw [follow, follow, same]
    -- the rules that follow may read the decision just taken as well
    refine ih (S := fun id => S id ∨ id = rule.decision.id)
      (fun r hr => tells r (List.mem_cons_of_mem _ hr)) (fun pre r post split f hf id hid => ?_)
      (fun id k => ?_) ?_
    · have seen := reads (rule :: pre) r post (by rw [split]; rfl) f hf id hid
      rwa [List.map_cons, List.mem_cons, ← or_assoc] at seen
    · by_cases e : id = rule.decision.id
      · rw [e, Function.update_self, Function.update_self]
      · rw [Function.update_of_ne e, Function.update_of_ne e, agree id (k.resolve_right e)]
    · rwa [List.map_cons, List.mem_cons, ← or_assoc] at hid

end Solution

namespace Diagram

variable {d : Diagram α} {evidence : Slots} {rules : List (DecisionRule α)} {D : Variable}

/-- A chance variable that a decision or an earlier one observes. -/
def Informs (d : Diagram α) (v D : Variable) : Prop :=
  v.kind = .chance ∧ (v.id ∈ D.parents ∨ ∃ E ∈ d.vars, d.Earlier E.id D.id ∧ v.id ∈ E.parents)

/-- The rule for a decision: those before it are for earlier decisions, and none after it is for it. -/
theorem Ruled.exists_turn (h : d.WellFormed) (ruled : d.Ruled evidence rules) (hD : D ∈ d.vars)
    (hopen : D.id ∈ openDecisions d evidence) :
    ∃ pre rule post, rules = pre ++ rule :: post ∧ rule.decision = D ∧
      (∀ r ∈ pre, d.Earlier r.decision.id D.id) ∧ D.id ∉ post.map (·.decision.id) := by
  rw [← ruled.listed] at hopen
  obtain ⟨rule, hr, e⟩ := List.mem_map.1 hopen
  obtain rfl := h.inj _ (ruled.sensible rule hr).mem D hD e
  obtain ⟨pre, post, split⟩ := List.append_of_mem hr
  have turns : (openDecisions d evidence).reverse = (post.map (·.decision.id)).reverse ++
      rule.decision.id :: (pre.map (·.decision.id)).reverse := by
    rw [← ruled.listed, split]
    simp
  have nodup := ruled.nodup h
  rw [split, List.map_append, List.map_cons] at nodup
  refine ⟨pre, rule, post, split, rfl, fun r hr => ?_, (notMem_of_nodup nodup).2⟩
  exact (earlier_of_split turns).2 _ (List.mem_reverse.2 (List.mem_map_of_mem hr))

/-- Following the rules comes to the same at a decision in worlds that agree on the chance variables that
inform it. -/
theorem Ruled.follow_eq (h : d.WellFormed) (ruled : d.Ruled evidence rules) (hD : D ∈ d.vars)
    (hopen : D.id ∈ openDecisions d evidence) {x y : World}
    (agree : ∀ v ∈ d.vars, d.Informs v D → x v.id = y v.id) :
    Solution.follow rules x D.id = Solution.follow rules y D.id := by
  obtain ⟨pre, rule, post, split, rfl, earlier, later⟩ := ruled.exists_turn h hD hopen
  have first : ∀ z, Solution.follow rules z rule.decision.id =
      Solution.follow (pre ++ [rule]) z rule.decision.id := fun z => by
    rw [split, ← List.singleton_append, ← List.append_assoc, Solution.follow_append,
      Solution.follow_of_notMem _ later]
  have split : rules = (pre ++ [rule]) ++ post := by rw [split, List.append_assoc]; rfl
  have sound : ∀ r ∈ pre ++ [rule], d.Sensible (d.Active evidence) r := fun r hr =>
    ruled.sensible r (by rw [split]; exact List.mem_append_left _ hr)
  rw [first, first]
  refine Solution.follow_congr (S := fun id => ∃ v ∈ d.vars, v.id = id ∧ d.Informs v rule.decision)
    (fun r hr x y => (sound r hr).position_congr) (fun pre' r post' split' f hf id hid => ?_) ?_
    (.inr (by simp))
  · have hr : r ∈ pre ++ [rule] := by rw [split']; simp
    have whole : rules = pre' ++ r :: (post' ++ post) := by rw [split, split', List.append_assoc]; rfl
    -- what a rule reads and no earlier rule is for is a chance variable that its decision observes
    refine (ruled.reads h whole hf hid).imp_left ?_
    rintro ⟨v, hv, rfl, chance⟩
    have observed := ((sound r hr).reads f hf v.id hid).1
    refine ⟨v, hv, rfl, chance, ?_⟩
    rcases List.mem_append.1 hr with before | here
    · exact .inr ⟨r.decision, (sound r hr).mem, earlier r before, observed⟩
    · exact .inl (List.mem_singleton.1 here ▸ observed)
  · rintro id ⟨v, hv, rfl, informs⟩
    exact agree v hv informs

end Diagram

namespace Oracle

variable {d : Diagram α} {made : Oracle α} {state state' : Assignment} {D : Variable}

/-- What is computed for complete states that agree on the chance variables that inform a decision gives
the decision one value, of its domain. -/
theorem New.computeAction_alike (h : d.WellFormed) (new : made.New d) (hD : D ∈ d.vars)
    (decision : D.kind = .decision) (reads : made.states.Reads state)
    (reads' : made.states.Reads state')
    (alike : ∀ v ∈ d.vars, d.Informs v D → state.get? v.name = state'.get? v.name) :
    ∃ action action' value, made.computeAction state = .ok action ∧
      made.computeAction state' = .ok action' ∧ value ∈ D.domain ∧
      action.get? D.name = some value ∧ action'.get? D.name = some value := by
  obtain ⟨x, action, shown, computed, -, at_rules⟩ := new.exists_computeAction h reads
  obtain ⟨y, action', shown', computed', -, at_rules'⟩ := new.exists_computeAction h reads'
  obtain ⟨n, m, run⟩ := new.solved
  obtain ⟨ruled, -⟩ := Diagram.ruled_of_solve h run
  have listed := (Diagram.mem_decisionOrder h hD).2 decision
  -- the worlds of the states agree where the states do
  have same : Solution.follow made.solution.rules x D.id = Solution.follow made.solution.rules y D.id := by
    refine ruled.follow_eq h hD (Diagram.openDecisions_empty ▸ listed) fun v hv informs => ?_
    have here := shown v (Diagram.mem_chanceVars.2 ⟨hv, informs.1⟩)
    rw [Scope.namedPosition, alike v hv informs] at here
    exact Except.ok.inj (here.symm.trans (shown' v (Diagram.mem_chanceVars.2 ⟨hv, informs.1⟩)))
  have turn := h.mem_pick.2 ⟨hD, listed⟩
  obtain ⟨value, held, found⟩ := Scope.namedPosition_eq_ok.1 (at_rules D turn)
  obtain ⟨value', held', found'⟩ := Scope.namedPosition_eq_ok.1 (at_rules' D turn)
  have there := Layout.getElem?_of_findIdx? found
  rw [same, Layout.getElem?_of_findIdx? found', Option.some_inj] at there
  subst there
  exact ⟨action, action', _, computed, computed', List.mem_of_getElem? (Layout.getElem?_of_findIdx? found'),
    held, held'⟩

/-- An oracle takes a decision the same way in all complete states that agree on the chance variables that
the decision or an earlier one observes, however it was used before. -/
theorem act_eq_of_informed {decl : Declaration α} (built : decl.build = .ok d)
    (made_of : Oracle.ofDiagram d = .ok made) (hD : D ∈ d.vars) (decision : D.kind = .decision)
    (reads : made.states.Reads state) (reads' : made.states.Reads state')
    (alike : ∀ v ∈ d.vars, d.Informs v D → state.get? v.name = state'.get? v.name)
    {oracle oracle' : Oracle α} (arises : made.Arises oracle) (arises' : made.Arises oracle') :
    ∃ action action' value, (answer (act state) oracle).1 = .ok action ∧
      (answer (act state') oracle').1 = .ok action' ∧ value ∈ D.domain ∧
      action.get? D.name = some value ∧ action'.get? D.name = some value := by
  have h := Declaration.wellFormed_of_build built
  have new := new_of_ofDiagram made_of
  obtain ⟨action, action', value, computed, computed', mem, held, held'⟩ :=
    new.computeAction_alike h hD decision reads reads' alike
  refine ⟨action, action', value, ?_, ?_, mem, held, held'⟩
  · rw [((arises.faithful h new).answer_act state).1, computed]
    rfl
  · rw [((arises'.faithful h new).answer_act state').1, computed']
    rfl

/-! ## A hidden well -/

def drillingDiagram : Diagram Rat := EliminationOrder.drilling.build.toOption.get (by decide +kernel)

theorem build_drilling : EliminationOrder.drilling.build = .ok drillingDiagram := eq_ok_get _

def drillingOracle : Oracle Rat := (Oracle.ofDiagram drillingDiagram).toOption.get (by decide +kernel)

theorem made_drilling : Oracle.ofDiagram drillingDiagram = .ok drillingOracle := eq_ok_get _

/-- A good report about a well with oil, or without. -/
def reported (oil : Bool) : Assignment := NameMap.ofList [("Oil", .bool oil), ("Report", .bool true)]

/-- Whoever has drilled a well with oil drills the dry one too, when the report is the same. -/
theorem act_drilling : reported true ≠ reported false ∧
    ∃ first second, (answer (act (reported true)) drillingOracle).1 = .ok first ∧
      (answer (act (reported false)) (answer (act (reported true)) drillingOracle).2).1 = .ok second ∧
      first.get? "Drill" = some (.bool true) ∧ second.get? "Drill" = some (.bool true) := by
  obtain ⟨D, hD, named, decision, alike⟩ : ∃ D ∈ drillingDiagram.vars, D.name = "Drill" ∧
      D.kind = .decision ∧ ∀ v ∈ drillingDiagram.vars, drillingDiagram.Informs v D →
        (reported true).get? v.name = (reported false).get? v.name := by
    unfold Diagram.Informs Diagram.Earlier
    decide +kernel
  obtain ⟨first, second, value, acted, acted', -, held, held'⟩ :=
    act_eq_of_informed build_drilling made_drilling hD decision ⟨3, by decide +kernel⟩
      ⟨1, by decide +kernel⟩ alike .made (.acted (reported true) .made)
  refine ⟨by decide +kernel, first, second, acted, acted', ?_⟩
  have drills : (answer (act (reported true)) drillingOracle).1.toOption.bind (·.get? "Drill") =
      some (.bool true) := by decide +kernel
  rw [acted] at drills
  rw [named] at held held'
  obtain rfl : value = .bool true := Option.some.inj (held.symm.trans drills)
  exact ⟨held, held'⟩

end Oracle

end Counsel
