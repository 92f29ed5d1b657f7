/-
Rows with something to draw. Building a diagram lets the sum of a row of a conditional table differ from
one by a small tolerance only, so every row adds up to more than zero (`likely_of_build`). Hence in every
world some position of a chance variable is possible given its parents (`exists_possible`).
-/
import Counsel.Proofs.Diagram.Build
import Counsel.Proofs.Diagram.Naming
import Counsel.Proofs.Inference.Posterior

namespace Counsel

open Outcome World

namespace Declaration

variable {α : Type} [Scalar α]

/-- The tables that are built are those of the variables that have passed. -/
theorem checked_of_buildCpts {decl : Declaration α} {declared : List Variable}
    {cpts : List (ResolvedCpt α)} {number : Nat} {vars : List Variable}
    {tables : List (Option (Factor α))}
    (h : decl.buildCpts declared cpts number vars = .ok tables) :
    ∀ f, some f ∈ tables → ∃ v ∈ vars, ∃ number scope values, checkCpt v values = .ok () ∧
      Factor.ofValues number scope (.probability v.id) values.toArray = .ok f := by
  induction vars generalizing number tables with
  | nil =>
    cases h
    exact fun f hf => absurd hf List.not_mem_nil
  | cons v rest ih =>
    have later : ∀ {number others}, decl.buildCpts declared cpts number rest = .ok others →
        ∀ f, some f ∈ others → ∃ u ∈ v :: rest, ∃ number scope values, checkCpt u values = .ok () ∧
          Factor.ofValues number scope (.probability u.id) values.toArray = .ok f := by
      intro number others built f hf
      obtain ⟨u, hu, passed⟩ := ih built f hf
      exact ⟨u, List.mem_cons_of_mem _ hu, passed⟩
    unfold buildCpts at h
    split at h
    next =>
      obtain ⟨others, built, h⟩ := bind_eq_ok.1 h
      cases h
      intro f hf
      exact later built f ((List.mem_cons.1 hf).resolve_left (by simp))
    next cpt _ =>
      obtain ⟨scope, -, h⟩ := bind_eq_ok.1 h
      obtain ⟨⟨⟩, checked, h⟩ := bind_eq_ok.1 h
      obtain ⟨g, made, h⟩ := bind_eq_ok.1 h
      obtain ⟨others, built, h⟩ := bind_eq_ok.1 h
      cases h
      intro f hf
      rcases List.mem_cons.1 hf with same | hf
      · cases same
        exact ⟨v, List.mem_cons_self, number, scope, cpt.decl.values, checked, made⟩
      · exact later built f hf

/-- The table of a variable has passed. -/
theorem checked_of_build {decl : Declaration α} {d : Diagram α} (built : decl.build = .ok d)
    {v : Variable} (hv : v ∈ d.vars) {f : Factor α} (found : d.cpt? v.id = some f) :
    ∃ number scope values, checkCpt v values = .ok () ∧
      Factor.ofValues number scope (.probability v.id) values.toArray = .ok f ∧
      scope.vars = d.pick v.parents ++ [v] := by
  have wf := wellFormed_of_build built
  obtain ⟨-, cpts, -, -, -, table, -, ht, -⟩ := build_eq_ok.1 built
  obtain ⟨-, -, number', scope', values', made', vars, -⟩ := Diagram.conditional_of_cpt? wf hv found
  have listed : some f ∈ d.cpts := by
    rw [wf.cpts_eq]
    exact List.mem_map.2 ⟨v, hv, found⟩
  obtain ⟨u, hu, number, scope, values, checked, made⟩ := checked_of_buildCpts ht f listed
  -- the scope of the table is that of the conditional table of the same child
  rw [(Factor.ofValues_eq_ok.1 made).2] at made'
  obtain ⟨-, same⟩ := Factor.ofValues_eq_ok.1 made'
  injection same with heads entries
  injection heads with numbers scopes roles
  injection roles with ids
  subst scopes
  obtain rfl := wf.inj u hu v hv ids
  exact ⟨number, scope, values, checked, made, vars⟩

/-- The rows of a table that passes sum to one, up to the tolerance. -/
theorem nearOne_of_checked {child : Variable} {values : List α} {scope : Scope}
    {parents : List Variable} (checked : checkCpt child values = .ok ())
    (size : values.length = scope.size) (vars : scope.vars = parents ++ [child]) (pos : 0 < child.card)
    {k : Nat} (hk : k < MixedRadix.size (Scope.bases parents)) :
    NearOne (Scalar.total (values.toArray.extract (k * child.card)
      (k * child.card + child.card)).toList) := by
  rw [Scope.size_last vars] at size
  have passed := (checkCpt_eq_ok.1 checked).2 (by rw [size, Nat.mul_mod_left])
  have row := passed k (by rwa [size, Nat.mul_div_cancel _ pos])
  simpa [rowOf, List.extract_eq_take_drop] using row

/-- A row that passes adds up to more than zero. -/
theorem NearOne.pos {sum : Rat} (near : NearOne sum) : 0 < sum := by
  have small : (rowTolerance : Rat) < 1 := by decide +kernel
  have below := lt_of_le_of_lt (not_lt.1 near.2) small
  linarith

/-- The rows of a table that passes add up to more than zero. -/
theorem rowSums_pos {child : Variable} {values : List Rat} {number : Nat} {scope : Scope}
    {parents : List Variable} {f : Factor Rat} (checked : checkCpt child values = .ok ())
    (made : Factor.ofValues number scope (.probability child.id) values.toArray = .ok f)
    (vars : scope.vars = parents ++ [child]) (pos : 0 < child.card) :
    ∀ sum ∈ Diagram.rowSums f, 0 < sum := by
  obtain ⟨size, rfl⟩ := Factor.ofValues_eq_ok.1 made
  rw [List.size_toArray] at size
  intro sum hsum
  unfold Diagram.rowSums at hsum
  simp only [Diagram.childVariable_of_last vars, vars, List.dropLast_concat, List.mem_map,
    List.mem_range] at hsum
  obtain ⟨k, hk, rfl⟩ := hsum
  rw [← Scalar.total_eq_sum]
  exact (nearOne_of_checked checked size vars pos hk).pos

end Declaration

namespace Diagram

variable {d : Diagram Rat}

/-- The rows of every conditional table add up to more than zero. -/
def Likely (d : Diagram Rat) : Prop := ∀ f ∈ d.probabilityFactors, ∀ sum ∈ rowSums f, 0 < sum

/-- A declaration that builds gives a diagram whose rows add up to more than zero. -/
theorem likely_of_build {decl : Declaration Rat} (h : decl.build = .ok d) : d.Likely := by
  have wf := Declaration.wellFormed_of_build h
  intro f hf
  obtain ⟨v, hv, found⟩ := exists_cpt?_eq wf hf
  obtain ⟨number, scope, values, checked, made, vars⟩ := Declaration.checked_of_build h hv found
  exact Declaration.rowSums_pos checked made vars (wf.card_pos hv)

/-- In every world some position of a chance variable is possible given its parents. -/
theorem exists_possible (h : d.WellFormed) (likely : d.Likely) {v : Variable} (hv : v ∈ d.vars)
    {f : Factor Rat} (mem : f ∈ d.probabilityFactors) (hf : d.Conditional v f) {x : World}
    (range : x.InRange d.vars) : ∃ p < v.card, 0 < f.valueIn (Function.update x v.id p) := by
  obtain ⟨row, hr, sum⟩ := row_of_conditional h hv hf range
  have built := (h.built_conditional hv hf).1
  have positive := likely f mem _
    (sum_mem_rowSums (Slots.within_ofWorld fun u hu => range u (built.mem_vars u hu)) hr)
  rw [sum, ← Finset.sum_const_zero (s := Finset.range v.card)] at positive
  obtain ⟨p, hp, value⟩ := Finset.exists_lt_of_sum_lt positive
  exact ⟨p, Finset.mem_range.1 hp, value⟩

/-- A state that can come up: a value for every chance variable, each of them possible given the values
of its parents. -/
structure Possible (d : Diagram Rat) (state : Assignment) : Prop where
  assigns : d.Assigns .chance state
  positive : ∀ slots, d.slotsOf state = .ok slots →
    ∀ f ∈ d.probabilityFactors, 0 < f.valueIn slots.world

end Diagram

end Counsel
