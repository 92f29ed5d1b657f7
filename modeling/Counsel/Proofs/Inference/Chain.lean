/-
The chain rule between queries and the probability of evidence. Observing one more variable restricts the
mass of the evidence to the worlds in which the variable has that position (`mass_of_added`), so the mass
is the one before, times the share that a query gives the value (`mass_insert`). The two procedures take
different tables and eliminate different variables, but after a query in the usual order the sums for the
probability of the evidence with the variable are inside of sums that the query has formed
(`exists_evidenceProbability_of_query`), so it is worked out. The probability of the evidence alone need
not be: of roots that share observed children, a query leaves out the one that it asks for, and summing
that one out first joins all the others (`crowded_switchboard`).
-/
import Counsel.Proofs.Diagram.Naming
import Counsel.Proofs.Inference.Evidence

namespace Counsel

open Outcome World

namespace World

/-- The variables that are summed over may start anywhere. -/
theorem enumerate_start {vars : List Variable} {g : World → Rat} {x y : World}
    (same : ∀ id, id ∉ vars.map (·.id) → x id = y id) : enumerate vars g x = enumerate vars g y := by
  induction vars using List.reverseRecOn generalizing x y with
  | nil => rw [funext fun id => same id List.not_mem_nil]
  | append_singleton rest v ih =>
    rw [enumerate_append]
    show ∑ p ∈ Finset.range v.card, enumerate rest g _ = ∑ p ∈ Finset.range v.card, enumerate rest g _
    refine Finset.sum_congr rfl fun p _ => ih fun id out => update_congr (fun away => same id ?_) p
    rw [List.map_append, List.mem_append, List.map_singleton, List.mem_singleton]
    exact not_or.2 ⟨out, away⟩

/-- Sums over the same variables from related worlds. -/
theorem enumerate_alongside {R : World → World → Prop} {vars : List Variable} {g k : World → Rat}
    (step : ∀ v ∈ vars, ∀ x y, R x y → ∀ p, R (Function.update x v.id p) (Function.update y v.id p))
    (eq : ∀ x y, R x y → g x = k y) {x y : World} (related : R x y) :
    enumerate vars g x = enumerate vars k y := by
  induction vars generalizing g k with
  | nil => exact eq x y related
  | cons v rest ih =>
    refine ih (fun u hu => step u (List.mem_cons_of_mem _ hu)) fun x y related => ?_
    exact Finset.sum_congr rfl fun p _ => eq _ _ (step v List.mem_cons_self x y related p)

end World

namespace Diagram

variable {d : Diagram Rat} {s t evidence evidence' : Slots} {v : Variable}

/-! ## Masses -/

/-- The mass of evidence depends on the chance variables that it observes. -/
theorem mass_congr (h : d.WellFormed) (hs : d.Admits s) (ht : d.Admits t) (same : d.SameChance s t) :
    d.mass s (fun _ => 1) = d.mass t fun _ => 1 := by
  have hidden : d.chanceVars.filter (fun v => !s.isAssigned v.id) =
      d.chanceVars.filter fun v => !t.isAssigned v.id := List.filter_congr fun v hv => by
    obtain ⟨hv, chance⟩ := mem_chanceVars.1 hv
    rw [same.isAssigned hv chance]
  rw [mass_unobserved h hs, mass_unobserved h ht, hidden]
  refine enumerate_alongside (R := fun x y => ∀ u ∈ d.chanceVars, x u.id = y u.id)
    (fun v _ x y alike p u hu => update_congr (fun _ => alike u hu) p)
    (fun x y alike => by rw [joint_congr h alike]) fun u hu => ?_
  obtain ⟨hu, chance⟩ := mem_chanceVars.1 hu
  rw [Slots.world, Slots.world, same u hu chance]

/-- Evidence with one more chance variable observed has the mass of the worlds with the evidence in which
the variable has that position. -/
theorem mass_of_added (hv : v ∈ d.chanceVars) (free : evidence.get? v.id = none) {p : Nat}
    (added : evidence'.Same (evidence.set v.id (some p))) :
    d.mass evidence' (fun _ => 1) = d.mass evidence fun x => if x v.id = p then 1 else 0 := by
  have terms : (fun x : World => if x.Agrees evidence' then d.joint x * 1 else 0) = fun x =>
      if x.Agrees evidence then d.joint x * (if x v.id = p then 1 else 0) else 0 := by
    funext x
    by_cases agrees : x.Agrees evidence
    · by_cases here : x v.id = p
      · rw [if_pos ((agrees_of_added free added).2 ⟨agrees, here⟩), if_pos agrees, if_pos here]
      · rw [if_neg fun k => here ((agrees_of_added free added).1 k).2, if_pos agrees, if_neg here,
          mul_zero]
    · rw [if_neg fun k => agrees ((agrees_of_added free added).1 k).1, if_neg agrees]
  unfold mass
  rw [terms]
  -- the sums start from worlds that differ in the position of the variable, which is summed over
  refine enumerate_start fun id out => ?_
  have ne : id ≠ v.id := fun e => out (List.mem_map.2 ⟨v, hv, e.symm⟩)
  rw [Slots.world, Slots.world, added, Slots.get?_set, if_neg (Ne.symm ne)]

/-! ## One more observation -/

/-- The positions of an assignment with one more value. -/
theorem slotsOf_insert (h : d.WellFormed) {observations : Assignment}
    (valid : d.slotsOf observations = .ok evidence) (hv : v ∈ d.vars) {x : Value} {p : Nat}
    (there : v.domain[p]? = some x) :
    ∃ evidence', d.slotsOf (observations.insert v.name x) = .ok evidence' ∧
      evidence'.Same (evidence.set v.id (some p)) := by
  -- assignments go by names and positions by identifiers; for variables of the diagram they agree
  have named : ∀ u ∈ d.vars, v.name = u.name ↔ v.id = u.id := fun u hu =>
    ⟨fun e => by rw [(List.nodup_map_iff_inj_on h.nodup_vars).1 h.named v hv u hu e],
      fun e => by rw [h.inj v hv u hu e]⟩
  obtain ⟨evidence', made⟩ : ∃ evidence', d.slotsOf (observations.insert v.name x) = .ok evidence' := by
    refine exists_slotsOf h fun name value held => ?_
    rw [NameMap.get?_insert] at held
    split at held
    next here =>
      cases held
      exact ⟨v, hv, here, List.mem_of_getElem? there⟩
    next => exact exists_of_slotsOf h valid held
  refine ⟨evidence', made, fun id => Option.ext fun q => ?_⟩
  rw [h.get?_slotsOf made, Slots.get?_set]
  constructor
  · rintro ⟨u, hu, rfl, value, held, hp⟩
    rw [NameMap.get?_insert] at held
    split at held
    next here =>
      cases held
      obtain rfl := h.inj v hv u hu ((named u hu).1 here)
      rw [if_pos rfl, ← hp, position?_of_getElem? h hv there]
    next away =>
      rw [if_neg (mt (named u hu).2 away)]
      exact (h.get?_slotsOf valid).2 ⟨u, hu, rfl, value, held, hp⟩
  · intro held
    split at held
    next here =>
      cases held
      exact ⟨v, hv, here, x, by rw [NameMap.get?_insert, if_pos rfl], position?_of_getElem? h hv there⟩
    next away =>
      obtain ⟨u, hu, rfl, value, known, hp⟩ := (h.get?_slotsOf valid).1 held
      exact ⟨u, hu, rfl, value, by rw [NameMap.get?_insert, if_neg (mt (named u hu).1 away), known], hp⟩

/-- The share of a value is the posterior probability of its position. -/
theorem probability_posterior (h : d.WellFormed) (hv : v ∈ d.vars) {x : Value} {p : Nat}
    (there : v.domain[p]? = some x) (name : String) :
    Marginal.probability ⟨name, v.domain.zip ((List.range v.card).map (d.posterior evidence v))⟩ x =
      d.posterior evidence v p := by
  have lt : p < v.card := (List.getElem?_eq_some_iff.1 there).1
  have keys : (v.domain.zip ((List.range v.card).map (d.posterior evidence v))).map (·.1) = v.domain :=
    List.map_fst_zip (by simp [Variable.card])
  have listed : (x, d.posterior evidence v p) ∈
      v.domain.zip ((List.range v.card).map (d.posterior evidence v)) := by
    refine List.mem_of_getElem? (i := p) ?_
    rw [List.getElem?_zip_eq_some]
    simp [there, lt]
  have found := (find?_key (keys ▸ (h.domains v hv).2) (k := x)).2 ⟨listed, rfl⟩
  unfold Marginal.probability
  rw [found]
  rfl

/-- What a query gives a value, times the mass of the evidence, is the mass of the evidence with the value
observed. -/
theorem mass_insert (h : d.WellFormed) (rows : d.RowsSumToOne) (hv : v ∈ d.vars)
    (chance : v.kind = .chance) {observations : Assignment}
    (valid : d.slotsOf observations = .ok evidence) (free : evidence.get? v.id = none)
    {order : Option EliminationOrder} {n : Nat} {marginal : Marginal Rat}
    (answered : (answer (d.query v.name observations order) n).1 = .ok marginal) {x : Value} {p : Nat}
    (there : v.domain[p]? = some x) (added : evidence'.Same (evidence.set v.id (some p))) :
    d.mass evidence' (fun _ => 1) = d.mass evidence (fun _ => 1) * marginal.probability x := by
  obtain ⟨likely, rfl, -⟩ :=
    marginal_of_query h rows hv chance valid (Slots.isAssigned_eq_false.2 free) answered
  rw [probability_posterior h hv there, posterior, mul_div_cancel₀ _ likely,
    mass_of_added (mem_chanceVars.2 ⟨hv, chance⟩) free added]

/-! ## The sums of a query -/

theorem unassigned_added {p : Nat} (added : evidence'.Same (evidence.set v.id (some p))) {id : VarId} :
    evidence'.isAssigned id = false ↔ id ≠ v.id ∧ evidence.isAssigned id = false := by
  rw [Slots.isAssigned, added, Slots.get?_set]
  split
  next here => simp [here]
  next away => simp [Ne.symm away, Slots.isAssigned]

/-- What the evidence with one more chance variable needs is needed by the query for that variable. -/
theorem marked_needed_of_behind (h : d.WellFormed) (admits : d.Admits evidence)
    (admits' : d.Admits evidence') (hv : v ∈ d.vars) {p : Nat}
    (added : evidence'.Same (evidence.set v.id (some p))) {id : VarId}
    (marked : Marked (d.behind evidence') id) : Marked (d.needed evidence v) id := by
  refine (marked_needed h admits hv).2 (((marked_behind h admits').1 marked).mono fun t ht => ?_)
  have assigned := Slots.mem_assigned_ids.1 (List.mem_of_mem_filter ht)
  rw [Slots.isAssigned, added, Slots.get?_set] at assigned
  split at assigned
  next here => exact here ▸ List.mem_cons_self
  next => exact List.mem_cons_of_mem _ (Slots.mem_assigned_ids.2 assigned)

/-- The hidden variables of the evidence with one more chance variable are some of those of the query for
that variable, in the same order. -/
theorem hidden_of_added (h : d.WellFormed) (admits : d.Admits evidence) (admits' : d.Admits evidence')
    (hv : v ∈ d.vars) {p : Nat} (added : evidence'.Same (evidence.set v.id (some p))) (ids : List VarId) :
    d.hidden (d.behind evidence') evidence' none ids =
      (d.hidden (d.needed evidence v) evidence (some v.id) ids).filter fun u =>
        (d.behind evidence').getD u.id.index false && !evidence'.isAssigned u.id := by
  rw [hidden_eq_filter h, hidden_eq_filter h, List.filter_filter]
  refine List.filter_congr fun u _ => ?_
  rw [Bool.eq_iff_iff]
  simp only [Bool.and_eq_true, bne_iff_ne, Bool.not_eq_true', ne_eq, Option.some.injEq, reduceCtorEq,
    not_false_eq_true, true_and, unassigned_added added]
  constructor
  · rintro ⟨⟨⟨ne, free⟩, marked⟩, chance⟩
    have needed := marked_needed_of_behind h admits admits' hv added marked
    exact ⟨⟨marked, ne, free⟩, ⟨⟨ne, free⟩, needed⟩, chance⟩
  · rintro ⟨⟨marked, ne, free⟩, -, chance⟩
    exact ⟨⟨⟨ne, free⟩, marked⟩, chance⟩

/-- The tables for the evidence with one more chance variable are inside of those of the query. -/
theorem covered_of_added (h : d.WellFormed) (admits : d.Admits evidence) (admits' : d.Admits evidence')
    (hv : v ∈ d.vars) {p : Nat} (added : evidence'.Same (evidence.set v.id (some p)))
    {fs gs : List (Factor Rat)}
    (projected : List.Forall₂ (Projected evidence') (d.markedFactors (d.behind evidence')) fs)
    (projected' : List.Forall₂ (Projected evidence) (d.markedFactors (d.needed evidence v)) gs) :
    Covered fs gs := by
  intro f hf
  obtain ⟨t, ht, filled⟩ := forall₂_right_mem projected hf
  obtain ⟨table, u, hu, marked, cond⟩ := (mem_markedFactors h).1 ht
  obtain ⟨g, hg, filled'⟩ := forall₂_mem projected' ((mem_markedFactors h).2
    ⟨table, u, hu, marked_needed_of_behind h admits admits' hv added marked, cond⟩)
  refine ⟨g, hg, fun id hid => ?_⟩
  obtain ⟨inside, free⟩ := (filled.mem_ids id).1 hid
  exact (filled'.mem_ids id).2 ⟨inside, ((unassigned_added added).1 free).2⟩

/-- After a query in the usual order the probability of the evidence with one of the values is worked
out. -/
theorem exists_evidenceProbability_of_query (h : d.WellFormed) (rows : d.RowsSumToOne) (hv : v ∈ d.vars)
    (chance : v.kind = .chance) {observations : Assignment}
    (valid : d.slotsOf observations = .ok evidence) (free : evidence.get? v.id = none) {n : Nat}
    {marginal : Marginal Rat}
    (answered : (answer (d.query v.name observations none) n).1 = .ok marginal) {p : Nat}
    (admits' : d.Admits evidence') (added : evidence'.Same (evidence.set v.id (some p))) (k : Nat) :
    ∃ q m, answer (d.evidenceProbability evidence') k = (.ok q, m) := by
  have admits := h.admits_of_slotsOf valid
  obtain ⟨-, -, gs, j, left, l, filled, eliminated⟩ :=
    marginal_of_query h rows hv chance valid (Slots.isAssigned_eq_false.2 free) answered
  obtain ⟨_, stage, projected⟩ := stage_of_project h admits (needed_closed h admits hv) filled
  obtain ⟨fs, i, _, known, stage', projected'⟩ := exists_stage h admits' (behind_closed h admits') k
  -- what the query has eliminated besides is not in the tables for the evidence with the value
  have away : ∀ u ∈ d.hidden (d.needed evidence v) evidence (some v.id) d.chanceOrder.reverse,
      ((d.behind evidence').getD u.id.index false && !evidence'.isAssigned u.id) = false →
        ¬ d.Hidden (d.behind evidence') evidence' u.id := by
    rintro u - dropped ⟨unseen, marked, -⟩
    rw [show (d.behind evidence').getD u.id.index false = true from marked, unseen] at dropped
    cases dropped
  obtain ⟨rest, m, run⟩ := exists_covered_run h
    (fun u hu => (mem_chanceVars.1 ((mem_hidden h).1 hu).1).1) away stage' stage
    (covered_of_added h admits admits' hv added projected' projected) eliminated
  rw [← hidden_of_added h admits admits' hv added] at run
  have observed : d.observedChance evidence' ≠ [] := by
    refine List.ne_nil_of_mem ((mem_observedChance h hv).2 ⟨?_, chance⟩)
    rw [Slots.isAssigned, added, Slots.get?_set, if_pos rfl]
    rfl
  exact ⟨_, m, evidenceProbability_of_eliminated h admits' observed known run⟩

/-! ## The chain rule -/

/-- Evidence has a probability, unless it is refused because a sum is too large for variables that do not
fit together. -/
def Likelihood (d : Diagram Rat) (evidence : Slots) (q : Rat) (n : Nat) : Prop :=
  (answer (d.evidenceProbability evidence) n).1 = .ok q ∨
    ¬ d.Fits ∧ ∃ names, (answer (d.evidenceProbability evidence) n).1 = .error (.model (.scopeTooLarge names))

theorem likelihood_mass (h : d.WellFormed) (rows : d.RowsSumToOne) (admits : d.Admits evidence) (n : Nat) :
    d.Likelihood evidence (d.mass evidence fun _ => 1) n := by
  rcases evidenceProbability_outcome h admits n with ⟨q, m, run⟩ | ⟨large, names, m, run⟩
  · left
    rw [run, evidenceProbability_eq h rows admits run]
  · right
    exact ⟨large, names, by rw [run]⟩

/-- Observations that say the same about every chance variable. -/
theorem sameChance_of_slotsOf (h : d.WellFormed) {observations others : Assignment}
    (valid : d.slotsOf observations = .ok s) (valid' : d.slotsOf others = .ok t)
    (same : ∀ v ∈ d.vars, v.kind = .chance → others.get? v.name = observations.get? v.name) :
    d.SameChance s t := by
  refine fun v hv chance => Option.ext fun p => ?_
  rw [h.get?_slotsOf valid, h.get?_slotsOf valid']
  refine exists_congr fun u => and_congr_right fun hu => and_congr_right fun e => ?_
  rw [h.inj u hu v hv e, same v hv chance]

/-- The probability of evidence is its mass in the joint distribution, whatever decisions are observed,
unless it is refused. A share that a query gives a value, in whatever order, leads from the probability of
the evidence to that of the evidence with the value; after a query in the usual order the latter is not
refused. -/
theorem evidenceProbability_chain {decl : Declaration Rat} (built : decl.build = .ok d)
    (rows : d.RowsSumToOne) {observations : Assignment} (valid : d.slotsOf observations = .ok evidence) :
    (∀ n, d.Likelihood evidence (d.mass evidence fun _ => 1) n) ∧
    (∀ others evidence', d.slotsOf others = .ok evidence' →
      (∀ v ∈ d.vars, v.kind = .chance → others.get? v.name = observations.get? v.name) →
      d.mass evidence' (fun _ => 1) = d.mass evidence (fun _ => 1) ∧
        d.evidenceProbability evidence' = d.evidenceProbability evidence) ∧
    ∀ v ∈ d.vars, v.kind = .chance → observations.get? v.name = none → ∀ order n marginal,
      (answer (d.query v.name observations order) n).1 = .ok marginal → ∀ x ∈ v.domain,
      ∃ evidence', d.slotsOf (observations.insert v.name x) = .ok evidence' ∧
        d.mass evidence' (fun _ => 1) = d.mass evidence (fun _ => 1) * marginal.probability x ∧
        (∀ q k l, (answer (d.evidenceProbability evidence) k).1 = .ok q →
          d.Likelihood evidence' (q * marginal.probability x) l) ∧
        (order = none → ∀ k, (answer (d.evidenceProbability evidence') k).1 =
          .ok (d.mass evidence (fun _ => 1) * marginal.probability x)) := by
  have h := Declaration.wellFormed_of_build built
  have admits := h.admits_of_slotsOf valid
  refine ⟨likelihood_mass h rows admits, fun others evidence' valid' same => ?_, ?_⟩
  · have same := sameChance_of_slotsOf h valid valid' same
    have admits' := h.admits_of_slotsOf valid'
    exact ⟨(mass_congr h admits admits' same).symm, (evidenceProbability_congr h admits admits' same).symm⟩
  · intro v hv chance asked order n marginal answered x hx
    have free := h.get?_slotsOf_eq_none valid hv asked
    obtain ⟨p, there⟩ := List.mem_iff_getElem?.1 hx
    obtain ⟨evidence', made, added⟩ := slotsOf_insert h valid hv there
    have admits' := h.admits_of_slotsOf made
    have mass := mass_insert h rows hv chance valid free answered there added
    refine ⟨evidence', made, mass, fun q k l known => ?_, ?_⟩
    · rw [evidenceProbability_eq h rows admits (Prod.ext known rfl), ← mass]
      exact likelihood_mass h rows admits' l
    · rintro rfl k
      obtain ⟨q, m, run⟩ :=
        exists_evidenceProbability_of_query h rows hv chance valid free answered admits' added k
      rw [run, evidenceProbability_eq h rows admits' run, mass]

/-- Rain after a rainy forecast. -/
theorem chain_umbrella : ∃ evidence evidence' marginal,
    umbrellaDiagram.slotsOf (NameMap.ofList [("Forecast", .text "rainy")]) = .ok evidence ∧
    (answer (umbrellaDiagram.query "Weather" (NameMap.ofList [("Forecast", .text "rainy")]) none) 0).1 =
      .ok marginal ∧
    marginal.probability (.text "rain") = 3/5 ∧
    umbrellaDiagram.slotsOf ((NameMap.ofList [("Forecast", .text "rainy")]).insert "Weather"
      (.text "rain")) = .ok evidence' ∧
    (answer (umbrellaDiagram.evidenceProbability evidence') 0).1 =
      .ok (umbrellaDiagram.mass evidence (fun _ => 1) * marginal.probability (.text "rain")) := by
  let v : Variable := ⟨⟨0⟩, "Weather", .chance, [.text "sun", .text "rain"], []⟩
  have hv : v ∈ umbrellaDiagram.vars := by decide +kernel
  have valid := @eq_ok_get _ _
    (umbrellaDiagram.slotsOf (NameMap.ofList [("Forecast", .text "rainy")])) (by decide +kernel)
  have answered : (answer (umbrellaDiagram.query v.name (NameMap.ofList [("Forecast", .text "rainy")])
      none) 0).1.toOption.map (·.probability (.text "rain")) = some (3/5) := by decide +kernel
  obtain ⟨marginal, m, run, share⟩ := answer_of_map answered
  obtain ⟨-, -, chain⟩ := evidenceProbability_chain build_umbrella rows_umbrella valid
  obtain ⟨evidence', made, -, -, given⟩ := chain v hv rfl (by decide +kernel) none 0 marginal (by rw [run])
    (.text "rain") (by decide)
  exact ⟨_, evidence', marginal, valid, by rw [run], share, made, given rfl 0⟩

/-- Sixteen lines into one board, each with a report that depends on the line and the board. -/
def lines : List (String × String) :=
  [("A", "a"), ("B", "b"), ("C", "c"), ("D", "d"), ("E", "e"), ("F", "f"), ("G", "g"), ("H", "h"),
    ("I", "i"), ("J", "j"), ("K", "k"), ("L", "l"), ("M", "m"), ("N", "n"), ("O", "o"), ("P", "p")]

def switchboard : Declaration Rat where
  vars := (lines.map fun line => ⟨line.1, .chance, (List.range 16).map fun i => .int i, []⟩) ++
    [⟨"Board", .chance, Value.boolean, []⟩] ++
    lines.map fun line => ⟨line.2, .chance, [.int 0], []⟩
  cpts := (lines.map fun line => ⟨line.1, [], 1 :: List.replicate 15 0⟩) ++ [⟨"Board", [], [1/2, 1/2]⟩] ++
    lines.map fun line => ⟨line.2, [line.1, "Board"], List.replicate 32 1⟩
  utilities := [⟨["Board"], [0, 0]⟩]

def switchboardDiagram : Diagram Rat := switchboard.build.toOption.get (by decide +kernel)

def reports : Assignment := NameMap.ofList (lines.map fun line => (line.2, .int 0))

/-- A query for the board takes the lines one by one, but the probability of the reports sums the board
out first, which leaves a sum over all lines. -/
theorem crowded_switchboard : switchboard.build = .ok switchboardDiagram ∧
    switchboardDiagram.RowsSumToOne ∧ ∃ v ∈ switchboardDiagram.vars, v.kind = .chance ∧
      reports.get? v.name = none ∧ ∃ evidence marginal,
        switchboardDiagram.slotsOf reports = .ok evidence ∧
        (answer (switchboardDiagram.query v.name reports none) 0).1 = .ok marginal ∧
        (answer (switchboardDiagram.evidenceProbability evidence) 0).1 =
          .error (.model (.scopeTooLarge (lines.map (·.1)))) := by
  let v : Variable := ⟨⟨16⟩, "Board", .chance, Value.boolean, []⟩
  have computed : (∀ f ∈ switchboardDiagram.probabilityFactors, ∀ sum ∈ rowSums f, sum = 1) ∧
      v ∈ switchboardDiagram.vars ∧ reports.get? v.name = none ∧
      (switchboardDiagram.slotsOf reports).toOption.map (fun evidence =>
        (answer (switchboardDiagram.evidenceProbability evidence) 0).1) =
          some (.error (.model (.scopeTooLarge (lines.map (·.1))))) ∧
      (answer (switchboardDiagram.query v.name reports none) 0).1.toOption.map (·.name) =
        some "Board" := by decide +kernel
  obtain ⟨rows, hv, free, refused, answered⟩ := computed
  obtain ⟨marginal, m, run, -⟩ := answer_of_map answered
  refine ⟨eq_ok_get _, rowsSumToOne_of_rowSums rows, v, hv, rfl, free, ?_⟩
  rcases valid : switchboardDiagram.slotsOf reports with e | evidence
  · rw [valid] at refused
    cases refused
  · rw [valid] at refused
    exact ⟨evidence, marginal, rfl, by rw [run], Option.some.inj refused⟩

end Diagram

end Counsel
