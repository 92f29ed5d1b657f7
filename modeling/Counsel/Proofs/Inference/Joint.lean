/-
The joint distribution of the chance variables. Its mass on the worlds that agree with evidence is the
sum, over the unobserved variables of a set closed under parents, of the product of their tables
(`mass_eq`): observed variables have one position each (`enumerate_fixed`), and the tables of the other
variables sum to one, from the last one on (`enumerate_barren`).
-/
import Counsel.Proofs.Diagram.Rows
import Counsel.Proofs.Inference.Stage

namespace Counsel

open World

namespace World

/-- A factor that depends on none of the variables passes the sum over them. -/
theorem enumerate_mul {vars : List Variable} {k : World → Rat}
    (free : ∀ v ∈ vars, ∀ y p, k (Function.update y v.id p) = k y) (g : World → Rat) (x : World) :
    enumerate vars (fun y => k y * g y) x = k x * enumerate vars g x := by
  induction vars generalizing g with
  | nil => rfl
  | cons v rest ih =>
    have head : sumOver v (fun y => k y * g y) = fun y => k y * sumOver v g y :=
      funext fun y => sumOver_mul fun p _ => free v List.mem_cons_self y p
    rw [enumerate, head, ih fun u hu => free u (List.mem_cons_of_mem _ hu), enumerate]

/-- A sum over variables without evidence leads from worlds that agree with it to such worlds only. -/
theorem enumerate_agrees {vars : List Variable} {evidence : Slots}
    (free : ∀ v ∈ vars, evidence.isAssigned v.id = false) {g k : World → Rat}
    (eq : ∀ y : World, y.Agrees evidence → g y = k y) {x : World} (agrees : x.Agrees evidence) :
    enumerate vars g x = enumerate vars k x :=
  enumerate_congr (fun v hv _ hy p _ => hy.update (free v hv) p) eq agrees

/-- Of a function that vanishes on worlds that do not agree with evidence, a sum over observed
variables has one term. -/
theorem enumerate_fixed {vars : List Variable} {evidence : Slots} {g : World → Rat}
    (vanishes : ∀ y, ¬ y.Agrees evidence → g y = 0)
    (observed : ∀ v ∈ vars, ∃ p < v.card, evidence.get? v.id = some p)
    (nodup : (vars.map (·.id)).Nodup) {x : World} (agrees : x.Agrees evidence) :
    enumerate vars g x = g x := by
  induction vars using List.reverseRecOn with
  | nil => rfl
  | append_singleton rest v ih =>
    obtain ⟨p, lt, hp⟩ := observed v (by simp)
    rw [List.map_append, List.nodup_append] at nodup
    have fresh : ∀ u ∈ rest, u.id ≠ v.id := fun u hu =>
      nodup.2.2 u.id (List.mem_map_of_mem hu) v.id (by simp)
    have here : Function.update x v.id p = x := by
      rw [← agrees_iff.1 agrees v.id p hp, Function.update_eq_self]
    rw [enumerate_append, enumerate, enumerate, sumOver,
      Finset.sum_eq_single_of_mem p (Finset.mem_range.2 lt), here]
    · exact ih (fun u hu => observed u (List.mem_append_left _ hu)) nodup.1
    · -- at another position of the last variable no world that is led to agrees
      intro q _ ne
      refine enumerate_eq_zero (update_fresh fresh) (fun y hy => ?_) (Function.update_self v.id q x)
      exact vanishes y fun k => ne (hy.symm.trans (agrees_iff.1 k v.id p hp))

end World

namespace Diagram

/-- The joint probability of the chance variables in a world. -/
def joint (d : Diagram Rat) (x : World) : Rat := Factor.weight d.probabilityFactors x

/-- The sum of a function, weighed by the joint probability, over all positions of the chance variables
that agree with the evidence. The decisions have the positions that the evidence gives them. -/
def mass (d : Diagram Rat) (evidence : Slots) (g : World → Rat) : Rat :=
  enumerate d.chanceVars (fun x => if x.Agrees evidence then d.joint x * g x else 0) evidence.world

/-- What the table of a variable holds in a world. -/
def entry (d : Diagram Rat) (v : Variable) (x : World) : Rat :=
  (d.cpt? v.id).elim 1 (·.valueIn x)

/-- The product of the tables of some variables. -/
def entries (d : Diagram Rat) (vars : List Variable) (x : World) : Rat :=
  (vars.map (d.entry · x)).prod

variable {d : Diagram Rat}

theorem entries_append (us vs : List Variable) (x : World) :
    d.entries (us ++ vs) x = d.entries us x * d.entries vs x := by
  rw [entries, List.map_append, List.prod_append, entries, entries]

theorem entries_concat (vars : List Variable) (v : Variable) (x : World) :
    d.entries (vars ++ [v]) x = d.entry v x * d.entries vars x := by
  rw [entries_append, mul_comm]
  exact congrArg (· * _) List.prod_singleton

theorem entries_perm {us vs : List Variable} (perm : us.Perm vs) (x : World) :
    d.entries us x = d.entries vs x := (perm.map _).prod_eq

/-! ## Tables as factors of the joint distribution -/

/-- The tables whose children pass a test, as a product over the variables that pass it. -/
theorem weight_tables (h : d.WellFormed) (test : VarId → Bool) (x : World) :
    Factor.weight (d.probabilityFactors.filter fun f => f.child?.any test) x =
      d.entries (d.chanceVars.filter fun v => test v.id) x := by
  unfold probabilityFactors chanceVars
  rw [h.cpts_eq]
  suffices part : ∀ vs : List Variable, (∀ v ∈ vs, v ∈ d.vars) →
      Factor.weight (((vs.map fun v => d.cpt? v.id).filterMap id).filter fun f => f.child?.any test) x =
        d.entries ((vs.filter (!·.isDecision)).filter fun v => test v.id) x from part d.vars fun _ => id
  intro vs sub
  induction vs with
  | nil => rfl
  | cons v rest ih =>
    have ih := ih fun u hu => sub u (List.mem_cons_of_mem _ hu)
    have tabled := h.tabled (sub v List.mem_cons_self)
    unfold Tabled at tabled
    split at tabled
    next chance =>
      obtain ⟨f, hf, cond⟩ := tabled
      rw [List.map_cons, hf, List.filterMap_cons_some (f := id) rfl, List.filter_cons,
        List.filter_cons_of_pos (by rw [isDecision_eq_false.2 chance]; rfl), List.filter_cons,
        child?_conditional cond, Option.any_some]
      cases test v.id with
      | false => exact ih
      | true =>
        simp only [if_true]
        rw [Factor.weight, List.map_cons, List.prod_cons, entries, List.map_cons, List.prod_cons,
          entry, hf]
        exact congrArg _ ih
    next decision =>
      rw [List.map_cons, tabled, List.filterMap_cons_none rfl,
        List.filter_cons_of_neg (by rw [isDecision_iff.2 decision]; decide)]
      exact ih

theorem joint_eq (h : d.WellFormed) (x : World) : d.joint x = d.entries d.chanceVars x := by
  have all : d.probabilityFactors.filter (fun f => f.child?.any fun _ => true) =
      d.probabilityFactors := by
    apply List.filter_eq_self.2
    intro f hf
    obtain ⟨v, -, cond⟩ := Outcome.forall₂_right_mem h.conditionals hf
    rw [child?_conditional cond, Option.any_some]
  rw [joint, ← all, weight_tables h, List.filter_eq_self.2 fun _ _ => rfl]

theorem joint_congr (h : d.WellFormed) {x y : World} (same : ∀ u ∈ d.chanceVars, x u.id = y u.id) :
    d.joint x = d.joint y := by
  unfold joint Factor.weight
  rw [List.map_congr_left fun f hf => ?_]
  obtain ⟨v, hv, cond⟩ := Outcome.forall₂_right_mem h.conditionals hf
  exact cond.valueIn_congr h hv same

/-- The table of a variable depends on its parents and itself. -/
theorem entry_update (h : d.WellFormed) {v : Variable} (hv : v ∈ d.chanceVars) {id : VarId}
    (ne : v.id ≠ id) (free : id ∉ v.parents) (x : World) (p : Nat) :
    d.entry v (Function.update x id p) = d.entry v x := by
  obtain ⟨f, -, hf, cond⟩ := exists_conditional h hv
  have hm := (mem_chanceVars.1 hv).1
  rw [entry, entry, hf]
  refine Factor.valueIn_congr (h.built_conditional hm cond).1 fun other ho => Function.update_of_ne ?_ _ _
  rcases (cond.mem_ids h hm).1 ho with ho | ho
  · exact fun e => free (e ▸ ho)
  · exact fun e => ne (ho.symm.trans e)

theorem entries_update (h : d.WellFormed) {vars : List Variable} {id : VarId}
    (sub : ∀ v ∈ vars, v ∈ d.chanceVars) (free : ∀ v ∈ vars, v.id ≠ id ∧ id ∉ v.parents) (x : World)
    (p : Nat) : d.entries vars (Function.update x id p) = d.entries vars x := by
  unfold entries
  rw [List.map_congr_left fun v hv => entry_update h (sub v hv) (free v hv).1 (free v hv).2 x p]

theorem sumOver_entry (h : d.WellFormed) (rows : d.RowsSumToOne) {v : Variable}
    (hv : v ∈ d.chanceVars) {x : World} (range : x.InRange d.vars) : sumOver v (d.entry v) x = 1 := by
  obtain ⟨f, mem, hf, cond⟩ := exists_conditional h hv
  rw [← sumOver_conditional h rows (mem_chanceVars.1 hv).1 mem cond range]
  refine congrArg (sumOver v · x) (funext fun y => ?_)
  rw [entry, hf]
  rfl

/-! ## Barren variables -/

/-- The chance variables, parents before children. -/
def sortedChance (d : Diagram Rat) : List Variable := d.pick d.chanceOrder

theorem mem_sortedChance (h : d.WellFormed) {v : Variable} :
    v ∈ d.sortedChance ↔ v ∈ d.chanceVars := by
  rw [sortedChance, h.mem_pick, mem_chanceVars]
  apply and_congr_right
  intro hv
  rw [chanceOrder, h.mem_orderOf]
  constructor
  · rintro ⟨u, hu, e, hk⟩
    exact h.inj u hu v hv e ▸ hk
  · exact fun hk => ⟨v, hv, rfl, hk⟩

theorem nodup_sortedChance (h : d.WellFormed) : d.sortedChance.Nodup := by
  refine (h.nodup_orderOf .chance).filterMap fun a b v ha hb => ?_
  rw [← (h.byId?_eq_some.1 ha).2, (h.byId?_eq_some.1 hb).2]

theorem sortedChance_perm (h : d.WellFormed) : d.sortedChance.Perm d.chanceVars :=
  (List.perm_ext_iff_of_nodup (nodup_sortedChance h) (h.nodup_vars.filter _)).2
    fun _ => mem_sortedChance h

/-- No variable is a parent of an earlier one. -/
theorem sortedChance_pairwise (h : d.WellFormed) :
    d.sortedChance.Pairwise fun a b => b.id ∉ a.parents := by
  have ids := (h.parentsFirst.pairwise h.nodup_topological).filter fun id =>
    (d.byId? id).any (·.kind == .chance)
  refine ids.filterMap _ fun a b free u hu v hv => ?_
  obtain ⟨hu', rfl⟩ := h.byId?_eq_some.1 hu
  obtain ⟨-, rfl⟩ := h.byId?_eq_some.1 hv
  rw [h.parentsOf_eq hu'] at free
  exact free

/-- Variables of a diagram differ in their ids. -/
theorem nodup_ids_of_subset (h : d.WellFormed) {vars : List Variable} (sub : ∀ v ∈ vars, v ∈ d.vars)
    (nodup : vars.Nodup) : (vars.map (·.id)).Nodup :=
  (List.nodup_map_iff_inj_on nodup).2 fun u hu v hv => h.inj u (sub u hu) v (sub v hv)

/-- A variable without children among the others is summed out of their tables and its own. -/
theorem sumOver_entries_concat (h : d.WellFormed) (rows : d.RowsSumToOne) {vars : List Variable}
    (sub : ∀ u ∈ vars, u ∈ d.chanceVars) {v : Variable} (hv : v ∈ d.chanceVars)
    (childless : ∀ u ∈ vars, u.id ≠ v.id ∧ v.id ∉ u.parents) {x : World} (range : x.InRange d.vars) :
    sumOver v (d.entries (vars ++ [v])) x = d.entries vars x := by
  have split : d.entries (vars ++ [v]) = fun y => d.entries vars y * d.entry v y :=
    funext fun y => (entries_concat vars v y).trans (mul_comm _ _)
  rw [split, sumOver_mul fun p _ => entries_update h sub childless x p,
    sumOver_entry h rows hv range, mul_one]

/-- Where the kept variables have their parents kept, the others are summed out and give one. -/
theorem enumerate_barren (h : d.WellFormed) (rows : d.RowsSumToOne) {keep : VarId → Bool}
    {vars : List Variable} (sub : ∀ v ∈ vars, v ∈ d.chanceVars) (nodup : vars.Nodup)
    (sorted : vars.Pairwise fun a b => b.id ∉ a.parents)
    (closed : ∀ v ∈ vars, keep v.id = true → ∀ p ∈ v.parents, keep p = true) {x : World}
    (range : x.InRange d.vars) : enumerate (vars.filter fun v => !keep v.id) (d.entries vars) x =
      d.entries (vars.filter fun v => keep v.id) x := by
  -- from the last variable on, which has no children
  induction vars using List.reverseRecOn with
  | nil => rfl
  | append_singleton rest v ih =>
    have chance : ∀ u ∈ rest, u ∈ d.chanceVars := fun u hu => sub u (List.mem_append_left _ hu)
    have hv : v ∈ d.chanceVars := sub v (by simp)
    have ids := nodup_ids_of_subset h (fun u hu => (mem_chanceVars.1 (sub u hu)).1) nodup
    have fresh : ∀ u ∈ rest, u.id ≠ v.id := by
      rw [List.map_append, List.nodup_append] at ids
      exact fun u hu => ids.2.2 u.id (List.mem_map_of_mem hu) v.id (by simp)
    rw [List.pairwise_append] at sorted
    have ih := ih chance (List.nodup_append.1 nodup).1 sorted.1
      (fun u hu => closed u (List.mem_append_left _ hu))
    rw [List.filter_append, List.filter_append]
    cases kept : keep v.id with
    | true =>
      -- the table of a kept variable depends on kept variables only
      have out : [v].filter (fun u => !keep u.id) = [] := by simp [kept]
      have kept_one : [v].filter (fun u => keep u.id) = [v] := by simp [kept]
      have free : ∀ u ∈ rest.filter (fun u => !keep u.id), ∀ y p,
          d.entry v (Function.update y u.id p) = d.entry v y := by
        intro u hu y p
        obtain ⟨hu, dropped⟩ := List.mem_filter.1 hu
        refine entry_update h hv (Ne.symm (fresh u hu)) (fun hp => ?_) y p
        rw [closed v (by simp) kept u.id hp] at dropped
        cases dropped
      rw [out, kept_one, List.append_nil, funext (entries_concat rest v), enumerate_mul free, ih,
        entries_concat]
    | false =>
      have out : [v].filter (fun u => !keep u.id) = [v] := by simp [kept]
      have kept_none : [v].filter (fun u => keep u.id) = [] := by simp [kept]
      rw [out, kept_none, List.append_nil, ← ih, enumerate_perm (List.perm_append_singleton v _)
        (ids.sublist ((List.filter_sublist.append_right [v]).map _))]
      refine enumerate_congr (R := fun y => y.InRange d.vars) (fun u hu y hy p hp => ?_)
        (fun y => sumOver_entries_concat h rows chance hv
          fun u hu => ⟨fresh u hu, sorted.2.2 u hu v (by simp)⟩) range
      exact hy.update h.inj (mem_chanceVars.1 (chance u (List.mem_of_mem_filter hu))).1 hp

/-! ## Mass -/

/-- Observed variables have one position each, so a mass is a sum over the other variables. -/
theorem mass_unobserved (h : d.WellFormed) {evidence : Slots} (admits : d.Admits evidence)
    (g : World → Rat) : d.mass evidence g =
      enumerate (d.chanceVars.filter fun v => !evidence.isAssigned v.id)
        (fun x => d.joint x * g x) evidence.world := by
  let hidden := d.chanceVars.filter fun v => !evidence.isAssigned v.id
  let observed := d.chanceVars.filter fun v => evidence.isAssigned v.id
  let term : World → Rat := fun x => if x.Agrees evidence then d.joint x * g x else 0
  have inVars : ∀ v ∈ d.chanceVars, v ∈ d.vars := fun v hv => (mem_chanceVars.1 hv).1
  have free : ∀ v ∈ hidden, evidence.isAssigned v.id = false := fun v hv => by
    simpa using (List.mem_filter.1 hv).2
  have perm : d.chanceVars.Perm (hidden ++ observed) :=
    (List.filter_append_perm (fun v => evidence.isAssigned v.id) d.chanceVars).symm.trans
      List.perm_append_comm
  have vanishes : ∀ y : World, ¬ y.Agrees evidence → enumerate hidden term y = 0 := fun y hy =>
    enumerate_eq_zero (R := fun y => ¬ y.Agrees evidence)
      (fun v hv _ hy p _ => mt (agrees_update (free v hv) p).1 hy) (fun _ hy => if_neg hy) hy
  have placed : ∀ v ∈ observed, ∃ p < v.card, evidence.get? v.id = some p := by
    intro v hv
    obtain ⟨hv, assigned⟩ := List.mem_filter.1 hv
    obtain ⟨p, hp⟩ := Slots.isAssigned_iff.1 assigned
    exact ⟨p, admits.within v (inVars v hv) p hp, hp⟩
  have nodup := nodup_ids_of_subset h inVars (h.nodup_vars.filter _)
  calc d.mass evidence g
      = enumerate (hidden ++ observed) term evidence.world := by rw [mass, enumerate_perm perm nodup]
    _ = enumerate observed (enumerate hidden term) evidence.world := by rw [enumerate_append]
    _ = enumerate hidden term evidence.world :=
        enumerate_fixed vanishes placed (nodup.sublist (List.filter_sublist.map _))
          (agrees_world evidence)
    _ = enumerate hidden (fun x => d.joint x * g x) evidence.world :=
        enumerate_agrees free (fun _ hy => if_pos hy) (agrees_world evidence)

/-- With the variables that are not kept summed out, the joint probability is the product of the kept
tables. -/
theorem enumerate_dropped (h : d.WellFormed) (rows : d.RowsSumToOne) {keep : VarId → Bool}
    (closed : ∀ v ∈ d.chanceVars, keep v.id = true → ∀ p ∈ v.parents, keep p = true) {g : World → Rat}
    (free : ∀ v ∈ d.chanceVars, keep v.id = false → ∀ y p, g (Function.update y v.id p) = g y)
    {x : World} (range : x.InRange d.vars) :
    enumerate (d.chanceVars.filter fun v => !keep v.id) (fun y => d.joint y * g y) x =
      d.entries (d.chanceVars.filter fun v => keep v.id) x * g x := by
  have perm := sortedChance_perm h
  have chance : ∀ v ∈ d.sortedChance, v ∈ d.chanceVars := fun v => (mem_sortedChance h).1
  have nodup : ((d.chanceVars.filter fun v => !keep v.id).map (·.id)).Nodup :=
    nodup_ids_of_subset h (fun v hv => (mem_chanceVars.1 (List.mem_of_mem_filter hv)).1)
      ((h.nodup_vars.filter _).filter _)
  have unmoved : ∀ v ∈ d.sortedChance.filter fun v => !keep v.id,
      ∀ y p, g (Function.update y v.id p) = g y := by
    intro v hv
    obtain ⟨hv, out⟩ := List.mem_filter.1 hv
    exact free v (chance v hv) (by simpa using out)
  have swap : (fun y => d.joint y * g y) = fun y => g y * d.entries d.sortedChance y :=
    funext fun y => by rw [joint_eq h, entries_perm perm.symm, mul_comm]
  rw [enumerate_perm (perm.symm.filter _) nodup, swap, enumerate_mul unmoved,
    enumerate_barren h rows chance (nodup_sortedChance h) (sortedChance_pairwise h)
      (fun v hv => closed v (chance v hv)) range, entries_perm (perm.filter _), mul_comm]

/-- The mass of a function that depends on the kept variables and the decisions only, where the kept
variables have their parents kept and are observed if any are: the sum over the kept variables that
are not observed of the product of the kept tables and the function. -/
theorem mass_eq (h : d.WellFormed) (rows : d.RowsSumToOne) {evidence : Slots}
    (admits : d.Admits evidence) {keep : VarId → Bool}
    (closed : ∀ v ∈ d.chanceVars, keep v.id = true → ∀ p ∈ v.parents, keep p = true)
    (seen : ∀ v ∈ d.chanceVars, evidence.isAssigned v.id = true → keep v.id = true)
    {g : World → Rat}
    (free : ∀ v ∈ d.chanceVars, keep v.id = false → ∀ y p, g (Function.update y v.id p) = g y) :
    d.mass evidence g =
      enumerate (d.chanceVars.filter fun v => keep v.id && !evidence.isAssigned v.id)
        (fun x => d.entries (d.chanceVars.filter fun v => keep v.id) x * g x) evidence.world := by
  let hidden := d.chanceVars.filter fun v => !evidence.isAssigned v.id
  let dropped := d.chanceVars.filter fun v => !keep v.id
  let summed := d.chanceVars.filter fun v => keep v.id && !evidence.isAssigned v.id
  have inVars : ∀ {test : Variable → Bool}, ∀ v ∈ d.chanceVars.filter test, v ∈ d.vars :=
    fun v hv => (mem_chanceVars.1 (List.mem_of_mem_filter hv)).1
  have kept_part : hidden.filter (fun v => keep v.id) = summed := List.filter_filter
  have dropped_part : hidden.filter (fun v => !keep v.id) = dropped := by
    rw [List.filter_filter]
    apply List.filter_congr
    intro v hv
    cases kept : keep v.id with
    | true => simp
    | false =>
      have unseen := mt (seen v hv) (by simp [kept])
      simp [unseen]
  have perm : hidden.Perm (dropped ++ summed) := by
    rw [← kept_part, ← dropped_part]
    exact (List.filter_append_perm (fun v => keep v.id) hidden).symm.trans List.perm_append_comm
  have nodup : (hidden.map (·.id)).Nodup :=
    nodup_ids_of_subset h inVars ((h.nodup_vars.filter _).filter _)
  have range : evidence.world.InRange d.vars := h.world_inRange admits.within
  rw [mass_unobserved h admits, enumerate_perm perm nodup, enumerate_append]
  exact enumerate_congr (R := fun y => y.InRange d.vars)
    (fun v hv _ hy _ hp => hy.update h.inj (inVars v hv) hp)
    (fun _ hy => enumerate_dropped h rows closed free hy) range

end Diagram

end Counsel
