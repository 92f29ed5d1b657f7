/-
Computations that can fail, read off their outcomes: a sequence succeeds exactly when each part does
(`bind_eq_ok`, `answer_bind_ok`), and a step over a list succeeds exactly when it does on each element
(`mapM_eq_ok`).
-/
import Mathlib
import Counsel.Inference.Query

namespace Counsel.Outcome

variable {ε σ α β γ : Type}

/-! ## Lists in step -/

theorem forall₂_getElem? {R : α → β → Prop} {xs : List α} {ys : List β} (h : List.Forall₂ R xs ys)
    {i : Nat} {x : α} (hx : xs[i]? = some x) : ∃ y, ys[i]? = some y ∧ R x y := by
  induction h generalizing i with
  | nil => cases hx
  | cons head _ ih =>
    cases i with
    | zero => cases hx; exact ⟨_, rfl, head⟩
    | succ i => exact ih hx

theorem forall₂_right_getElem? {R : α → β → Prop} {xs : List α} {ys : List β}
    (h : List.Forall₂ R xs ys) {i : Nat} {y : β} (hy : ys[i]? = some y) :
    ∃ x, xs[i]? = some x ∧ R x y := forall₂_getElem? h.flip hy

theorem forall₂_mem {R : α → β → Prop} {xs : List α} {ys : List β} (h : List.Forall₂ R xs ys)
    {x : α} (hx : x ∈ xs) : ∃ y ∈ ys, R x y := by
  obtain ⟨i, hi⟩ := List.mem_iff_getElem?.1 hx
  obtain ⟨y, hy, r⟩ := forall₂_getElem? h hi
  exact ⟨y, List.mem_of_getElem? hy, r⟩

theorem forall₂_right_mem {R : α → β → Prop} {xs : List α} {ys : List β}
    (h : List.Forall₂ R xs ys) {y : β} (hy : y ∈ ys) : ∃ x ∈ xs, R x y := forall₂_mem h.flip hy

theorem exists_forall₂ {R : α → β → Prop} {xs : List α} (h : ∀ x ∈ xs, ∃ y, R x y) :
    ∃ ys, List.Forall₂ R xs ys := by
  induction xs with
  | nil => exact ⟨[], .nil⟩
  | cons x rest ih =>
    obtain ⟨y, hy⟩ := h x List.mem_cons_self
    obtain ⟨ys, hys⟩ := ih fun z hz => h z (List.mem_cons_of_mem _ hz)
    exact ⟨y :: ys, .cons hy hys⟩

/-- What tells the elements of a list apart tells those of a list in step with it apart. -/
theorem forall₂_nodup {R : α → β → Prop} {f : α → γ} {δ : Type} {g : β → δ} {xs : List α}
    {ys : List β} (h : List.Forall₂ R xs ys)
    (inj : ∀ x y x' y', R x y → R x' y' → g y = g y' → f x = f x') (nodup : (xs.map f).Nodup) :
    (ys.map g).Nodup := by
  induction h with
  | nil => exact List.nodup_nil
  | @cons x y xs ys head rest ih =>
    rw [List.map_cons, List.nodup_cons] at nodup ⊢
    refine ⟨fun hm => nodup.1 ?_, ih nodup.2⟩
    obtain ⟨y', hy', e⟩ := List.mem_map.1 hm
    obtain ⟨x', hx', r⟩ := forall₂_right_mem rest hy'
    exact inj x' y' x y r head e ▸ List.mem_map_of_mem hx'

/-- Lists that are in step with one list are in step with each other. -/
theorem forall₂_of_common {R : α → β → Prop} {S : α → γ → Prop} {T : β → γ → Prop}
    {xs : List α} {ys : List β} {zs : List γ} (h : List.Forall₂ R xs ys) (h' : List.Forall₂ S xs zs)
    (k : ∀ x y z, R x y → S x z → T y z) : List.Forall₂ T ys zs := by
  induction h generalizing zs with
  | nil =>
    cases h'
    exact .nil
  | cons head _ ih =>
    cases h' with
    | cons head' tail' => exact .cons (k _ _ _ head head') (ih tail')

theorem forall₂_replace {R : α → β → Prop} {xs : List α} {before rest : List β} {y z : β}
    (h : List.Forall₂ R xs (before ++ y :: rest)) (k : ∀ x, R x y → R x z) :
    List.Forall₂ R xs (before ++ z :: rest) := by
  induction before generalizing xs with
  | nil =>
    cases h with
    | cons head tail => exact .cons (k _ head) tail
  | cons b before ih =>
    cases h with
    | cons head tail => exact .cons head (ih tail)

/-! ## Places in a list -/

theorem notMem_of_nodup {pre post : List α} {a : α} (nodup : (pre ++ a :: post).Nodup) :
    a ∉ pre ∧ a ∉ post := by
  rw [List.nodup_middle, List.nodup_cons, List.mem_append, not_or] at nodup
  exact nodup.1

/-- An entry that is not repeated has one place. -/
theorem split_unique {pre post pre' post' : List α} {a : α} (nodup : (pre ++ a :: post).Nodup)
    (e : pre ++ a :: post = pre' ++ a :: post') : pre = pre' ∧ post = post' := by
  obtain ⟨before, after⟩ := notMem_of_nodup nodup
  obtain ⟨rfl, -, rfl⟩ := (List.append_cons_inj_of_notMem before after).1 e
  exact ⟨rfl, rfl⟩

/-- A search by a key that nothing shares finds what has the key. -/
theorem find?_key {κ : Type} [BEq κ] [LawfulBEq κ] {key : α → κ} {xs : List α}
    (nodup : (xs.map key).Nodup) {k : κ} {x : α} :
    xs.find? (key · == k) = some x ↔ x ∈ xs ∧ key x = k := by
  constructor
  · intro found
    exact ⟨List.mem_of_find?_eq_some found, by simpa using List.find?_some found⟩
  · rintro ⟨hx, rfl⟩
    cases found : xs.find? (key · == key x) with
    | none => exact absurd (beq_self_eq_true _) (List.find?_eq_none.1 found x hx)
    | some y =>
      have same : key y = key x := by simpa using List.find?_some found
      rw [List.inj_on_of_nodup_map nodup (List.mem_of_find?_eq_some found) hx same]

/-! ## Results -/

theorem bind_eq_ok {x : Except ε α} {f : α → Except ε β} {b : β} :
    (x >>= f) = .ok b ↔ ∃ a, x = .ok a ∧ f a = .ok b := by
  cases x with
  | error e =>
    constructor
    · rintro ⟨⟩
    · rintro ⟨_, ⟨⟩, _⟩
  | ok a =>
    constructor
    · exact fun h => ⟨a, rfl, h⟩
    · rintro ⟨_, h, k⟩
      cases h; exact k

theorem bind_eq_error {x : Except ε α} {f : α → Except ε β} {e : ε} :
    (x >>= f) = .error e ↔ x = .error e ∨ ∃ a, x = .ok a ∧ f a = .error e := by
  cases x with
  | error e' =>
    constructor
    · intro h
      cases h
      exact .inl rfl
    · rintro (h | ⟨_, ⟨⟩, _⟩)
      cases h
      rfl
  | ok a =>
    constructor
    · exact fun h => .inr ⟨a, rfl, h⟩
    · rintro (h | ⟨_, h, k⟩)
      · cases h
      · cases h
        exact k

theorem ok_bind (a : α) (f : α → Except ε β) : (Except.ok a >>= f) = f a := rfl

theorem pure_eq_ok (a : α) : (pure a : Except ε α) = .ok a := rfl

/-- A step over a list succeeds exactly when it succeeds on each element. -/
theorem mapM_eq_ok {f : α → Except ε β} {xs : List α} {ys : List β} :
    xs.mapM f = .ok ys ↔ List.Forall₂ (fun x y => f x = .ok y) xs ys := by
  induction xs generalizing ys with
  | nil =>
    rw [List.mapM_nil, pure_eq_ok, Except.ok.injEq, List.forall₂_nil_left_iff]
    exact eq_comm
  | cons x xs ih =>
    rw [List.mapM_cons, bind_eq_ok, List.forall₂_cons_left_iff]
    constructor
    · rintro ⟨y, hy, h⟩
      obtain ⟨ys', hys, h⟩ := bind_eq_ok.1 h
      cases h
      exact ⟨y, ys', hy, ih.1 hys, rfl⟩
    · rintro ⟨y, ys', hy, hys, rfl⟩
      exact ⟨y, hy, bind_eq_ok.2 ⟨ys', ih.2 hys, rfl⟩⟩

theorem exists_of_mapM_eq_ok {f : α → Except ε β} {xs : List α} {ys : List β}
    (h : xs.mapM f = .ok ys) {x : α} (hx : x ∈ xs) : ∃ y ∈ ys, f x = .ok y :=
  forall₂_mem (mapM_eq_ok.1 h) hx

/-- A step over a list fails as it does on one of the elements. -/
theorem exists_of_mapM_eq_error {f : α → Except ε β} {xs : List α} {e : ε} (h : xs.mapM f = .error e) :
    ∃ x ∈ xs, f x = .error e := by
  induction xs with
  | nil => cases h
  | cons x rest ih =>
    rw [List.mapM_cons] at h
    rcases bind_eq_error.1 h with here | ⟨y, -, h⟩
    · exact ⟨x, List.mem_cons_self, here⟩
    · rcases bind_eq_error.1 h with there | ⟨ys, -, h⟩
      · obtain ⟨z, hz, fails⟩ := ih there
        exact ⟨z, List.mem_cons_of_mem _ hz, fails⟩
      · cases h

/-- A loop succeeds where every step does. -/
theorem exists_mapM {f : α → Except ε β} {xs : List α} (h : ∀ x ∈ xs, ∃ y, f x = .ok y) :
    ∃ ys, xs.mapM f = .ok ys :=
  (exists_forall₂ h).imp fun _ => mapM_eq_ok.2

theorem mapM_eq_ok_map {f : α → Except ε β} {g : α → β} {xs : List α}
    (h : ∀ x ∈ xs, f x = .ok (g x)) : xs.mapM f = .ok (xs.map g) := by
  rw [mapM_eq_ok, List.forall₂_map_right_iff, List.forall₂_same]
  exact h

/-- A computation that succeeds gives what can be taken out of it. -/
theorem eq_ok_get {x : Except ε α} (h : x.toOption.isSome = true) : x = .ok (x.toOption.get h) := by
  cases x with
  | ok a => rfl
  | error e => cases h

/-- Steps that agree on the elements of a list agree on the list. -/
theorem mapM_congr {m : Type → Type} [Monad m] [LawfulMonad m] {f g : α → m β} {xs : List α}
    (h : ∀ x ∈ xs, f x = g x) : xs.mapM f = xs.mapM g := by
  induction xs with
  | nil => rfl
  | cons x xs ih =>
    rw [List.mapM_cons, List.mapM_cons, h x List.mem_cons_self,
      ih fun y hy => h y (List.mem_cons_of_mem _ hy)]

/-- What a loop makes of errors it makes of the error of a step. -/
theorem mapM_mapError {δ : Type} (g : ε → δ) (f : α → Except ε β) (xs : List α) :
    xs.mapM (fun x => (f x).mapError g) = (xs.mapM f).mapError g := by
  induction xs with
  | nil => rfl
  | cons x xs ih =>
    rw [List.mapM_cons, List.mapM_cons, ih]
    rcases f x with e | y
    · rfl
    · rcases xs.mapM f with e | ys <;> rfl

theorem mapError_eq_ok {δ : Type} {g : ε → δ} {x : Except ε α} {a : α} :
    x.mapError g = .ok a ↔ x = .ok a := by
  cases x <;> simp [Except.mapError]

theorem map_mapError {δ : Type} (g : ε → δ) (f : α → β) (x : Except ε α) :
    (x.map f).mapError g = (x.mapError g).map f := by
  cases x <;> rfl

theorem toOption_map (g : α → β) (x : Except ε α) : (x.map g).toOption = x.toOption.map g := by
  cases x <;> rfl

/-- Steps that agree on the elements of a list agree as a fold over the list. -/
theorem foldlM_congr {f g : β → α → Except ε β} {xs : List α} (h : ∀ b, ∀ x ∈ xs, f b x = g b x)
    (b : β) : xs.foldlM f b = xs.foldlM g b := by
  induction xs generalizing b with
  | nil => rfl
  | cons x xs ih =>
    rw [List.foldlM_cons, List.foldlM_cons, h b x List.mem_cons_self]
    exact congrArg _ (funext fun b' => ih (fun b y hy => h b y (List.mem_cons_of_mem _ hy)) b')

/-- What each step of a loop keeps holds of its result. -/
theorem foldlM_keeps {f : β → α → Except ε β} (kept : β → Prop) {xs : List α}
    (step : ∀ b, ∀ x ∈ xs, ∀ c, kept b → f b x = .ok c → kept c) {b c : β} (start : kept b)
    (h : xs.foldlM f b = .ok c) : kept c := by
  induction xs generalizing b with
  | nil =>
    cases h
    exact start
  | cons x rest ih =>
    rw [List.foldlM_cons, bind_eq_ok] at h
    obtain ⟨mid, hm, h⟩ := h
    exact ih (fun b x hx => step b x (List.mem_cons_of_mem _ hx))
      (step b x List.mem_cons_self mid start hm) h

/-- A fold whose every step succeeds is the plain fold. -/
theorem foldlM_eq_ok {f : β → α → Except ε β} {g : β → α → β} {xs : List α}
    (h : ∀ b, ∀ x ∈ xs, f b x = .ok (g b x)) (b : β) : xs.foldlM f b = .ok (xs.foldl g b) := by
  induction xs generalizing b with
  | nil => rfl
  | cons x xs ih =>
    rw [List.foldlM_cons, h b x List.mem_cons_self, ok_bind,
      ih fun b y hy => h b y (List.mem_cons_of_mem _ hy)]
    rfl

/-- A computation that fails with certain errors only. -/
def FailsWith (p : ε → Prop) (x : Except ε β) : Prop := ∀ e, x = .error e → p e

theorem failsWith_ok {p : ε → Prop} {b : β} : FailsWith p (.ok b) := fun _ h => nomatch h

theorem failsWith_error {p : ε → Prop} {e : ε} (h : p e) : FailsWith p (.error e : Except ε β) :=
  fun _ same => Except.error.inj same ▸ h

theorem FailsWith.bind {p : ε → Prop} {x : Except ε β} {f : β → Except ε γ} (h : FailsWith p x)
    (rest : ∀ b, FailsWith p (f b)) : FailsWith p (x >>= f) := by
  intro e fails
  rcases bind_eq_error.1 fails with here | ⟨b, -, later⟩
  · exact h e here
  · exact rest b e later

theorem FailsWith.mapM {p : ε → Prop} {f : β → Except ε γ} {xs : List β}
    (h : ∀ x, FailsWith p (f x)) : FailsWith p (xs.mapM f) := by
  intro e fails
  obtain ⟨x, -, here⟩ := exists_of_mapM_eq_error fails
  exact h x e here

theorem map_eq_ok {x : Except ε β} {f : β → γ} {c : γ} : x.map f = .ok c ↔ ∃ b, x = .ok b ∧ f b = c := by
  cases x <;> simp [Except.map]

theorem map_eq_error {x : Except ε β} {f : β → γ} {e : ε} : x.map f = .error e ↔ x = .error e := by
  cases x <;> simp [Except.map]

/-! ## Runs -/

/-- The answer of a step from a state, and the state after it. -/
def answer (step : ExceptT ε (StateM σ) α) (s : σ) : Except ε α × σ := step.run.run s

/-- A run of a sequence is a run of its first part and, unless that fails, one of the rest. -/
theorem answer_bind (x : ExceptT ε (StateM σ) α) (f : α → ExceptT ε (StateM σ) β) (s : σ) :
    answer (x >>= f) s = match answer x s with
      | (.ok a, t) => answer (f a) t
      | (.error e, t) => (.error e, t) := by
  simp only [answer, ExceptT.run_bind, StateT.run_bind]
  rcases h : x.run.run s with ⟨r, t⟩
  cases r <;> rfl

@[simp] theorem answer_pure (a : α) (s : σ) :
    answer (pure a : ExceptT ε (StateM σ) α) s = (.ok a, s) := rfl

theorem answer_map (x : ExceptT ε (StateM σ) α) (f : α → β) (s : σ) :
    answer (f <$> x) s = ((answer x s).1.map f, (answer x s).2) := by
  rw [map_eq_pure_bind, answer_bind]
  rcases answer x s with ⟨_ | _, _⟩ <;> rfl

@[simp] theorem answer_throw (e : ε) (s : σ) :
    answer (throw e : ExceptT ε (StateM σ) α) s = (.error e, s) := rfl

theorem answer_bind_ok {x : ExceptT ε (StateM σ) α} {f : α → ExceptT ε (StateM σ) β} {s t : σ}
    {b : β} : answer (x >>= f) s = (.ok b, t) ↔
      ∃ a u, answer x s = (.ok a, u) ∧ answer (f a) u = (.ok b, t) := by
  rw [answer_bind]
  constructor
  · intro h
    rcases hx : answer x s with ⟨r, u⟩
    rw [hx] at h
    cases r with
    | error e => cases h
    | ok a => exact ⟨a, u, rfl, h⟩
  · rintro ⟨a, u, hx, h⟩
    rw [hx]; exact h

theorem answer_bind_of_ok {x : ExceptT ε (StateM σ) α} {s t : σ} {a : α}
    (h : answer x s = (.ok a, t)) (f : α → ExceptT ε (StateM σ) β) :
    answer (x >>= f) s = answer (f a) t := by
  rw [answer_bind, h]

theorem answer_bind_of_error {x : ExceptT ε (StateM σ) α} {s t : σ} {e : ε}
    (h : answer x s = (.error e, t)) (f : α → ExceptT ε (StateM σ) β) :
    answer (x >>= f) s = (.error e, t) := by
  rw [answer_bind, h]

/-- A step whose answer has some property at all succeeds. -/
theorem answer_of_map {x : ExceptT ε (StateM σ) α} {s : σ} {f : α → β} {y : β}
    (h : (answer x s).1.toOption.map f = some y) : ∃ a t, answer x s = (.ok a, t) ∧ f a = y := by
  rcases ha : answer x s with ⟨r, t⟩
  rw [ha] at h
  cases r with
  | error e => cases h
  | ok a => exact ⟨a, t, rfl, Option.some.inj h⟩

/-- A fold that fails does so at one element, after the elements before it went well. -/
theorem answer_foldlM_error {f : β → α → ExceptT ε (StateM σ) β} {xs : List α} {b : β} {s t : σ}
    {e : ε} (h : answer (xs.foldlM f b) s = (.error e, t)) :
    ∃ pre x post b' s', xs = pre ++ x :: post ∧ answer (pre.foldlM f b) s = (.ok b', s') ∧
      answer (f b' x) s' = (.error e, t) := by
  induction xs generalizing b s with
  | nil => cases h
  | cons x xs ih =>
    rw [List.foldlM_cons, answer_bind] at h
    rcases hx : answer (f b x) s with ⟨r, s'⟩
    rw [hx] at h
    cases r with
    | error e' =>
      cases h
      exact ⟨[], x, xs, b, s, rfl, rfl, hx⟩
    | ok b' =>
      obtain ⟨pre, y, post, b'', s'', rfl, run, fails⟩ := ih h
      refine ⟨x :: pre, y, post, b'', s'', rfl, ?_, fails⟩
      rw [List.foldlM_cons, answer_bind_of_ok hx]
      exact run

theorem forM_eq_foldlM {m : Type → Type} [Monad m] (f : α → m PUnit) (xs : List α) :
    xs.forM f = xs.foldlM (fun _ x => f x) ⟨⟩ := by
  induction xs with
  | nil => rfl
  | cons x xs ih => exact congrArg (f x >>= ·) (funext fun _ => ih)

/-- A loop that fails does so at one element, after the elements before it went well. -/
theorem answer_forM_error {f : α → ExceptT ε (StateM σ) PUnit} {xs : List α} {s t : σ} {e : ε}
    (h : answer (xs.forM f) s = (.error e, t)) :
    ∃ pre x post s', xs = pre ++ x :: post ∧ answer (pre.forM f) s = (.ok (), s') ∧
      answer (f x) s' = (.error e, t) := by
  rw [forM_eq_foldlM] at h
  obtain ⟨pre, x, post, ⟨⟩, s', split, run, fails⟩ := answer_foldlM_error h
  rw [← forM_eq_foldlM] at run
  exact ⟨pre, x, post, s', split, run, fails⟩

/-! ## Steps of inference -/

@[simp] theorem answer_nextNumber (n : Nat) : answer Infer.nextNumber n = (.ok n, n + 1) := rfl

@[simp] theorem answer_ofModel_ok (a : β) (n : Nat) :
    answer (Infer.ofModel (.ok a)) n = (.ok a, n) := rfl

@[simp] theorem answer_ofModel_error (e : ModelError) (n : Nat) :
    answer (Infer.ofModel (.error e) : Infer β) n = (.error (.model e), n) := rfl

@[simp] theorem answer_liftExcept (r : Except InferenceError β) (n : Nat) :
    answer (liftExcept r : Infer β) n = (r, n) := by cases r <;> rfl

theorem answer_ofModel_eq_ok {r : Except ModelError β} {n m : Nat} {b : β} :
    answer (Infer.ofModel r) n = (.ok b, m) ↔ r = .ok b ∧ n = m := by
  cases r with
  | error e => simp
  | ok a => simp

end Counsel.Outcome
