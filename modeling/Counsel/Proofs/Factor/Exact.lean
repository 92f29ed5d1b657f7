/-
Factors of rational numbers in worlds. A sum over a variable is what the product of the parts adds up
to (`valueIn_sumOut`), and a maximum is attained at the position it names, the first one at which it is
(`cellIn_maxOut`). Sums over variables commute (`enumerate_perm`), pass factors that do not
depend on the variable (`sumOver_mul`), and need only be compared on worlds that they lead to
(`enumerate_congr`, `enumerate_le`).
-/
import Counsel.Proofs.Factor.Numbering

namespace Counsel

/-! ## Sums over variables -/

namespace World

/-- The sum of a function over the positions of a variable. -/
def sumOver (v : Variable) (g : World → Rat) (x : World) : Rat :=
  ∑ p ∈ Finset.range v.card, g (Function.update x v.id p)

/-- The sum of a function over all joint positions of some variables; the first one is summed over
innermost. -/
def enumerate : List Variable → (World → Rat) → World → Rat
  | [], g => g
  | v :: rest, g => enumerate rest (sumOver v g)

theorem enumerate_append (us vs : List Variable) (g : World → Rat) :
    enumerate (us ++ vs) g = enumerate vs (enumerate us g) := by
  induction us generalizing g with
  | nil => rfl
  | cons u us ih => exact ih (sumOver u g)

theorem sumOver_comm {u v : Variable} (ne : u.id ≠ v.id) (g : World → Rat) :
    sumOver u (sumOver v g) = sumOver v (sumOver u g) := by
  funext x
  unfold sumOver
  rw [Finset.sum_comm]
  apply Finset.sum_congr rfl
  intro p _
  apply Finset.sum_congr rfl
  intro q _
  rw [Function.update_comm ne]

/-- The order of the variables of a sum does not matter. -/
theorem enumerate_perm {us vs : List Variable} (perm : us.Perm vs) (nodup : (us.map (·.id)).Nodup)
    (g : World → Rat) : enumerate us g = enumerate vs g := by
  induction perm generalizing g with
  | nil => rfl
  | cons v _ ih => exact ih (List.nodup_cons.1 nodup).2 _
  | swap u v l =>
    simp only [List.map_cons, List.nodup_cons, List.mem_cons, not_or] at nodup
    show enumerate l (sumOver u (sumOver v g)) = enumerate l (sumOver v (sumOver u g))
    rw [sumOver_comm (Ne.symm nodup.1.1)]
  | trans p _ ih ih' =>
    exact (ih nodup g).trans (ih' ((p.map _).nodup_iff.1 nodup) g)

/-- A factor that does not depend on the variable passes the sum. -/
theorem sumOver_mul {v : Variable} {k g : World → Rat} {x : World}
    (free : ∀ p < v.card, k (Function.update x v.id p) = k x) :
    sumOver v (fun y => k y * g y) x = k x * sumOver v g x := by
  unfold sumOver
  rw [Finset.mul_sum]
  apply Finset.sum_congr rfl
  intro p hp
  show k _ * g _ = k x * g _
  rw [free p (Finset.mem_range.1 hp)]

/-- Sums compare only worlds that they lead to. -/
theorem enumerate_le {R : World → Prop} {vars : List Variable} {g h : World → Rat}
    (step : ∀ v ∈ vars, ∀ y, R y → ∀ p < v.card, R (Function.update y v.id p))
    (le : ∀ y, R y → g y ≤ h y) {x : World} (hx : R x) : enumerate vars g x ≤ enumerate vars h x := by
  induction vars generalizing g h with
  | nil => exact le x hx
  | cons v rest ih =>
    refine ih (fun u hu => step u (List.mem_cons_of_mem _ hu)) fun y hy => ?_
    exact Finset.sum_le_sum fun p hp =>
      le _ (step v List.mem_cons_self y hy p (Finset.mem_range.1 hp))

theorem enumerate_congr {R : World → Prop} {vars : List Variable} {g h : World → Rat}
    (step : ∀ v ∈ vars, ∀ y, R y → ∀ p < v.card, R (Function.update y v.id p))
    (eq : ∀ y, R y → g y = h y) {x : World} (hx : R x) : enumerate vars g x = enumerate vars h x :=
  le_antisymm (enumerate_le step (fun y hy => (eq y hy).le) hx)
    (enumerate_le step (fun y hy => (eq y hy).ge) hx)

theorem enumerate_zero (vars : List Variable) (x : World) : enumerate vars (fun _ => 0) x = 0 := by
  induction vars with
  | nil => rfl
  | cons v rest ih =>
    have head : sumOver v (fun _ => 0) = fun _ => 0 := funext fun y => Finset.sum_const_zero
    rw [enumerate, head, ih]

theorem enumerate_eq_zero {R : World → Prop} {vars : List Variable} {g : World → Rat}
    (step : ∀ v ∈ vars, ∀ y, R y → ∀ p < v.card, R (Function.update y v.id p))
    (zero : ∀ y, R y → g y = 0) {x : World} (hx : R x) : enumerate vars g x = 0 :=
  (enumerate_congr step zero hx).trans (enumerate_zero vars x)

theorem enumerate_sum {ι : Type} (s : Finset ι) (vars : List Variable) (g : ι → World → Rat)
    (x : World) : enumerate vars (fun y => ∑ i ∈ s, g i y) x = ∑ i ∈ s, enumerate vars (g i) x := by
  induction vars generalizing g with
  | nil => rfl
  | cons v rest ih =>
    have head : sumOver v (fun y => ∑ i ∈ s, g i y) = fun y => ∑ i ∈ s, sumOver v (g i) y :=
      funext fun y => Finset.sum_comm
    rw [enumerate, head, ih]
    rfl

/-- A sum does not move the variables that it leaves alone. -/
theorem update_fresh {vars : List Variable} {id : VarId} (fresh : ∀ u ∈ vars, u.id ≠ id) {p : Nat} :
    ∀ u ∈ vars, ∀ y : World, y id = p → ∀ q < u.card, Function.update y u.id q id = p := by
  intro u hu y hy q _
  rw [Function.update_of_ne (fresh u hu).symm, hy]

end World

open World

namespace Factor

/-! ## Products -/

/-- The product of the values of some factors in a world. -/
def weight (fs : List (Factor Rat)) (x : World) : Rat := (fs.map (·.valueIn x)).prod

theorem weight_append (fs gs : List (Factor Rat)) (x : World) :
    weight (fs ++ gs) x = weight fs x * weight gs x := by
  rw [weight, List.map_append, List.prod_append, weight, weight]

theorem weight_singleton (f : Factor Rat) (x : World) : weight [f] x = f.valueIn x := by
  simp [weight]

/-- The product splits into the factors that pass a test and the others. -/
theorem weight_filter (fs : List (Factor Rat)) (test : Factor Rat → Bool) (x : World) :
    weight (fs.filter test) x * weight (fs.filter (!test ·)) x = weight fs x := by
  rw [← weight_append]
  exact ((List.filter_append_perm test fs).map _).prod_eq

theorem productIn_eq (parts : List (Factor Rat)) (x : World) (acc : Rat) :
    productIn parts x acc = acc * weight parts x := by
  induction parts generalizing acc with
  | nil => rw [productIn, weight, List.map_nil, List.prod_nil, mul_one]
  | cons f rest ih =>
    rw [productIn, weight, List.map_cons, List.prod_cons, ← mul_assoc]
    show (if (acc * f.valueIn x == 0) = true then _ else _) = _
    split
    next zero =>
      have zero : acc * f.valueIn x = 0 := beq_iff_eq.1 zero
      rw [zero, zero_mul]
      exact zero
    next => exact ih _

theorem productValue_eq (fs : List (Factor Rat)) (x : World) : productValue fs x = weight fs x := by
  unfold productValue
  suffices h : ∀ acc : Rat, fs.foldl (fun acc f => acc * f.valueIn x) acc = acc * weight fs x from
    (h 1).trans (one_mul _)
  intro acc
  induction fs generalizing acc with
  | nil => exact (mul_one acc).symm
  | cons f rest ih =>
    rw [List.foldl_cons, ih, weight, weight, List.map_cons, List.prod_cons, mul_assoc]

/-! ## Sums and maxima -/

theorem foldl_add (g : Nat → Rat) (n : Nat) :
    (List.range n).foldl (fun sum p => sum + g p) 0 = ∑ p ∈ Finset.range n, g p := by
  induction n with
  | zero => rfl
  | succ n ih => rw [List.range_succ, List.foldl_append, ih, Finset.sum_range_succ]; rfl

/-- A sum is the sum of the products of its parts. -/
theorem valueIn_sumOut {n : Nat} {axis : Variable} {parts : List (Factor Rat)} {f : Factor Rat}
    (made : sumOut n axis parts = .ok f) (x : World) :
    f.valueIn x = sumOver axis (weight parts) x := by
  obtain ⟨scope, -, rfl⟩ := sumOut_eq_ok.1 made
  rw [valueIn, cellIn]
  simp only [productIn_eq]
  exact (foldl_add (fun p => 1 * weight parts (Function.update x axis.id p)) axis.card).trans
    (Finset.sum_congr rfl fun p _ => one_mul _)

/-- The best of the first positions is attained, no value there is larger, and the values before it
are smaller. -/
theorem foldl_betterCell (g : Nat → Rat) (n : Nat) :
    ∃ b i, (List.range (n + 1)).foldl (fun best p => betterCell best (g p) p) none = some (b, i) ∧
      i ≤ n ∧ g i = b ∧ (∀ p ≤ n, g p ≤ b) ∧ ∀ p < i, g p < b := by
  induction n with
  | zero =>
    exact ⟨g 0, 0, rfl, le_refl 0, rfl, fun p hp => by rw [Nat.le_zero.1 hp], fun p hp => by omega⟩
  | succ n ih =>
    obtain ⟨b, i, fold, hi, attained, largest, first⟩ := ih
    rw [List.range_succ, List.foldl_append, fold]
    by_cases better : b < g (n + 1)
    · refine ⟨g (n + 1), n + 1, ?_, le_refl _, rfl, fun p hp => ?_, fun p hp => ?_⟩
      · exact if_pos better
      · rcases Nat.le_succ_iff.1 hp with hp | rfl
        · exact le_trans (largest p hp) (le_of_lt better)
        · exact le_refl _
      · exact lt_of_le_of_lt (largest p (Nat.le_of_lt_succ hp)) better
    · refine ⟨b, i, ?_, Nat.le_succ_of_le hi, attained, fun p hp => ?_, first⟩
      · exact if_neg better
      · rcases Nat.le_succ_iff.1 hp with hp | rfl
        · exact largest p hp
        · exact not_lt.1 better

/-- A maximum is attained at the position that it names, no value is larger, and the values at the
positions before it are smaller. -/
theorem cellIn_maxOut {n : Nat} {axis : Variable} {base f : Factor Rat}
    (made : maxOut n axis base = .ok f) (pos : 0 < axis.card) (x : World) :
    (f.cellIn x).2 < axis.card ∧
      base.valueIn (Function.update x axis.id (f.cellIn x).2) = f.valueIn x ∧
      (∀ p < axis.card, base.valueIn (Function.update x axis.id p) ≤ f.valueIn x) ∧
      ∀ p < (f.cellIn x).2, base.valueIn (Function.update x axis.id p) < f.valueIn x := by
  obtain ⟨scope, -, rfl⟩ := maxOut_eq_ok.1 made
  obtain ⟨k, hk⟩ := Nat.exists_eq_succ_of_ne_zero (Nat.ne_of_gt pos)
  obtain ⟨b, i, fold, hi, attained, largest, first⟩ :=
    foldl_betterCell (fun p => base.valueIn (Function.update x axis.id p)) k
  have cell : cellIn (max ⟨n, scope, .derived base.carriesUtility⟩ axis base) x = (b, i) := by
    rw [cellIn, hk]
    exact congrArg (Option.getD · (0, 0)) fold
  have value : (max ⟨n, scope, .derived base.carriesUtility⟩ axis base).valueIn x = b :=
    congrArg Prod.fst cell
  rw [value, cell, hk]
  exact ⟨Nat.lt_succ_of_le hi, attained, fun p hp => largest p (Nat.le_of_lt_succ hp), first⟩

/-! ## Dependence -/

variable {vars : List Variable}

theorem valueIn_congr {f : Factor Rat} (h : Built vars f) {x y : World}
    (agree : ∀ id ∈ f.scope.ids, x id = y id) : f.valueIn x = f.valueIn y := by
  rw [valueIn, cellIn_congr h agree, valueIn]

theorem weight_congr {fs : List (Factor Rat)} (h : ∀ f ∈ fs, Built vars f) {x y : World}
    (agree : ∀ f ∈ fs, ∀ id ∈ f.scope.ids, x id = y id) : weight fs x = weight fs y := by
  unfold weight
  rw [List.map_congr_left fun f hf => valueIn_congr (h f hf) (agree f hf)]

/-- Factors that do not mention a variable do not depend on it. -/
theorem weight_update {fs : List (Factor Rat)} (h : ∀ f ∈ fs, Built vars f) {id : VarId}
    (free : ∀ f ∈ fs, id ∉ f.scope.ids) (x : World) (p : Nat) :
    weight fs (Function.update x id p) = weight fs x := by
  refine weight_congr h fun f hf other ho => Function.update_of_ne ?_ _ _
  exact fun e => free f hf (e ▸ ho)

end Factor

end Counsel
