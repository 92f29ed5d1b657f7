/-
Two computations side by side. They go alike (`Outcome.Alike`) if from states in one relation both
succeed, with answers and states in another one, or both fail; for what reason does not matter. Parts that
go alike make sequences and repetitions that do. A computation whose result is the same from all
states of a kind (`Outcome.Settles`) goes alike from any two of them.
-/
import Counsel.Proofs.Step

namespace Counsel.Outcome

variable {ε ε' σ τ α β γ δ ι : Type}

/-! ## Results -/

theorem toOption_eq_some {r : Except ε β} {b : β} : r.toOption = some b ↔ r = .ok b := by
  cases r with
  | ok c => exact ⟨fun h => congrArg _ (Option.some.inj h), fun h => congrArg some (Except.ok.inj h)⟩
  | error e => exact ⟨fun h => (nomatch h), fun h => (nomatch h)⟩

/-- Both results are there, and related, or both are missing. -/
inductive Both (R : β → γ → Prop) : Except ε β → Except ε' γ → Prop
  | ok {b : β} {c : γ} (h : R b c) : Both R (.ok b) (.ok c)
  | error {e : ε} {e' : ε'} : Both R (.error e) (.error e')

theorem Both.imp {R S : β → γ → Prop} {r : Except ε β} {r' : Except ε' γ} (h : Both R r r')
    (f : ∀ b c, R b c → S b c) : Both S r r' := by
  cases h with
  | ok h => exact .ok (f _ _ h)
  | error => exact .error

theorem both_self {R : β → β → Prop} {r : Except ε β} (h : ∀ b, r = .ok b → R b b) : Both R r r := by
  cases r with
  | ok b => exact .ok (h b rfl)
  | error e => exact .error

theorem Both.map {R : β → γ → Prop} {S : α → δ → Prop} {r : Except ε β} {r' : Except ε' γ} {f : β → α}
    {g : γ → δ} (h : Both R r r') (k : ∀ b c, R b c → S (f b) (g c)) : Both S (r.map f) (r'.map g) := by
  cases h with
  | ok h => exact .ok (k _ _ h)
  | error => exact .error

/-- What is known of a result may be added. -/
theorem Both.told {R : β → γ → Prop} {S : β → Prop} {r : Except ε β} {r' : Except ε' γ} (h : Both R r r')
    (k : ∀ b, r = .ok b → S b) : Both (fun b c => R b c ∧ S b) r r' := by
  cases h with
  | ok h => exact .ok ⟨h, k _ rfl⟩
  | error => exact .error

/-- Both results are the same, but for why they are missing. -/
theorem both_eq_iff {r : Except ε β} {r' : Except ε' β} : Both Eq r r' ↔ r.toOption = r'.toOption := by
  constructor
  · rintro (same | -)
    · exact congrArg some same
    · rfl
  · intro same
    rcases r with e | b <;> rcases r' with e' | c
    · exact .error
    · cases same
    · cases same
    · exact .ok (Option.some.inj same)

/-! ## Runs -/

/-- Both computations succeed, and `Q` relates their answers and the states after them, or both fail. -/
def AlikeAt (x : ExceptT ε (StateM σ) β) (s : σ) (y : ExceptT ε' (StateM τ) γ) (t : τ)
    (Q : β → γ → σ → τ → Prop) : Prop :=
  Both (fun b c => Q b c (answer x s).2 (answer y t).2) (answer x s).1 (answer y t).1

/-- Two computations go alike from all states in the relation `P`. -/
def Alike (P : σ → τ → Prop) (x : ExceptT ε (StateM σ) β) (y : ExceptT ε' (StateM τ) γ)
    (Q : β → γ → σ → τ → Prop) : Prop :=
  ∀ s t, P s t → AlikeAt x s y t Q

/-- After parts that go alike, what is known of their runs may be used. -/
theorem AlikeAt.bind {x : ExceptT ε (StateM σ) β} {y : ExceptT ε' (StateM τ) γ} {s : σ} {t : τ}
    {M : β → γ → σ → τ → Prop} {Q : α → δ → σ → τ → Prop} {f : β → ExceptT ε (StateM σ) α}
    {g : γ → ExceptT ε' (StateM τ) δ} (h : AlikeAt x s y t M)
    (k : ∀ b c s' t', answer x s = (.ok b, s') → answer y t = (.ok c, t') → M b c s' t' →
      AlikeAt (f b) s' (g c) t' Q) : AlikeAt (x >>= f) s (y >>= g) t Q := by
  rw [AlikeAt] at h ⊢
  rw [answer_bind, answer_bind]
  rcases hx : answer x s with ⟨r, s'⟩
  rcases hy : answer y t with ⟨r', t'⟩
  rw [hx, hy] at h
  cases h with
  | ok m => exact k _ _ s' t' hx hy m
  | error => exact .error

namespace Alike

variable {P P' : σ → τ → Prop} {M : β → γ → σ → τ → Prop} {Q : α → δ → σ → τ → Prop}
  {x : ExceptT ε (StateM σ) β} {y : ExceptT ε' (StateM τ) γ}

theorem imp {M' : β → γ → σ → τ → Prop} (h : Alike P x y M) (enter : ∀ s t, P' s t → P s t)
    (leave : ∀ b c s t, M b c s t → M' b c s t) : Alike P' x y M' :=
  fun s t hs => (h s t (enter s t hs)).imp fun b c => leave b c _ _

theorem of_imp (h : Alike P x y M) (enter : ∀ s t, P' s t → P s t) : Alike P' x y M :=
  h.imp enter fun _ _ _ _ k => k

theorem bind {f : β → ExceptT ε (StateM σ) α} {g : γ → ExceptT ε' (StateM τ) δ} (h : Alike P x y M)
    (k : ∀ b c, Alike (M b c) (f b) (g c) Q) : Alike P (x >>= f) (y >>= g) Q :=
  fun s t hs => (h s t hs).bind fun b c s' t' _ _ m => k b c s' t' m

theorem pure {b : β} {c : γ} (h : ∀ s t, P s t → M b c s t) :
    Alike P (Pure.pure b : ExceptT ε (StateM σ) β) (Pure.pure c : ExceptT ε' (StateM τ) γ) M :=
  fun s t hs => .ok (h s t hs)

theorem throw (e : ε) (e' : ε') : Alike P (MonadExcept.throw e : ExceptT ε (StateM σ) β)
    (MonadExcept.throw e' : ExceptT ε' (StateM τ) γ) M := fun _ _ _ => .error

theorem map {f : β → α} {g : γ → δ} (h : Alike P x y M)
    (k : ∀ b c s t, M b c s t → Q (f b) (g c) s t) : Alike P (f <$> x) (g <$> y) Q := by
  rw [map_eq_pure_bind, map_eq_pure_bind]
  exact h.bind fun b c => pure (k b c)

/-- Both states are read; what holds of them still holds. -/
theorem read_bind {f : σ → ExceptT ε (StateM σ) α} {g : τ → ExceptT ε' (StateM τ) δ}
    (h : ∀ s t, P s t → Alike P (f s) (g t) Q) : Alike P (get >>= f) (get >>= g) Q := by
  intro s t hs
  rw [AlikeAt, answer_get_bind, answer_get_bind]
  exact h s t hs s t hs

theorem change {f : σ → σ} {g : τ → τ} {M : PUnit → PUnit → σ → τ → Prop}
    (h : ∀ s t, P s t → M () () (f s) (g t)) :
    Alike P (modify f : ExceptT ε (StateM σ) PUnit) (modify g : ExceptT ε' (StateM τ) PUnit) M :=
  fun s t hs => .ok (h s t hs)

/-- What follows from the relation before may be used. -/
theorem given {p : Prop} (known : ∀ s t, P s t → p) (h : p → Alike P x y M) : Alike P x y M :=
  fun s t hs => h (known s t hs) s t hs

end Alike

/-! ## Runs with a settled result -/

/-- From every state of a kind the computation has one and the same result, or fails if there is none,
and in any case the state after it is of that kind. -/
def Settles (kept : σ → Prop) (x : ExceptT ε (StateM σ) β) (result : Option β) : Prop :=
  ∀ s, kept s → (answer x s).1.toOption = result ∧ kept (answer x s).2

namespace Settles

variable {kept : σ → Prop} {x : ExceptT ε (StateM σ) β} {result : Option β}

theorem pure (b : β) : Settles kept (Pure.pure b : ExceptT ε (StateM σ) β) (some b) :=
  fun _ hs => ⟨rfl, hs⟩

theorem bind {f : β → ExceptT ε (StateM σ) γ} {next : β → Option γ} (h : Settles kept x result)
    (k : ∀ b, result = some b → Settles kept (f b) (next b)) :
    Settles kept (x >>= f) (result.bind next) := by
  intro s hs
  obtain ⟨told, after⟩ := h s hs
  rw [answer_bind]
  rcases hx : answer x s with ⟨r, s'⟩
  rw [hx] at told after
  subst told
  cases r with
  | ok b => exact k b rfl s' after
  | error e => exact ⟨rfl, after⟩

theorem map {f : β → γ} (h : Settles kept x result) : Settles kept (f <$> x) (result.map f) := by
  rw [map_eq_pure_bind, Option.map_eq_bind]
  exact h.bind fun b _ => pure (f b)

/-- What is read of the state is the same in all states of the kind. -/
theorem read_bind {f : σ → ExceptT ε (StateM σ) γ} {next : Option γ}
    (h : ∀ s, kept s → Settles kept (f s) next) : Settles kept (get >>= f) next := fun s hs => by
  rw [answer_get_bind]
  exact h s hs s hs

theorem foldlM {f : γ → ι → ExceptT ε (StateM σ) γ} {next : γ → ι → Option γ} {items : List ι}
    (h : ∀ i ∈ items, ∀ c, Settles kept (f c i) (next c i)) (c : γ) :
    Settles kept (items.foldlM f c) (items.foldlM next c) := by
  induction items generalizing c with
  | nil => exact pure c
  | cons i rest ih =>
    rw [List.foldlM_cons, List.foldlM_cons]
    exact (h i List.mem_cons_self c).bind fun c' _ =>
      ih (fun j hj => h j (List.mem_cons_of_mem _ hj)) c'

/-- Computations with the same settled result go alike. -/
theorem alike (h : Settles kept x result) :
    Alike (fun s t => kept s ∧ kept t) x x fun b c s t => b = c ∧ kept s ∧ kept t := by
  rintro s t ⟨hs, ht⟩
  have same : Both Eq (answer x s).1 (answer x t).1 :=
    both_eq_iff.2 ((h s hs).1.trans (h t ht).1.symm)
  exact same.imp fun b c e => ⟨e, (h s hs).2, (h t ht).2⟩

end Settles

/-! ## One computation from two states -/

/-- From any two states in a relation the computation gives one and the same answer, which is `good`, or
fails twice; and where it does not fail, the states after it are in that relation again. -/
def Repeats (P : σ → σ → Prop) (x : ExceptT ε (StateM σ) β) (good : β → Prop) : Prop :=
  Alike P x x fun b c s t => b = c ∧ good b ∧ P s t

namespace Repeats

variable {P : σ → σ → Prop} {x : ExceptT ε (StateM σ) β} {good : β → Prop} {good' : γ → Prop}

theorem pure {b : β} (h : good b) : Repeats P (Pure.pure b : ExceptT ε (StateM σ) β) good :=
  Alike.pure fun _ _ k => ⟨rfl, h, k⟩

theorem bind {f : β → ExceptT ε (StateM σ) γ} (h : Repeats P x good)
    (k : ∀ b, good b → Repeats P (f b) good') : Repeats P (x >>= f) good' := by
  refine Alike.bind h fun b c => ?_
  refine Alike.given (fun _ _ m => And.intro m.1 m.2.1) fun ⟨same, g⟩ => ?_
  exact same ▸ (k b g).of_imp fun _ _ m => m.2.2

theorem map {f : β → γ} (h : Repeats P x good) (k : ∀ b, good b → good' (f b)) :
    Repeats P (f <$> x) good' := by
  rw [map_eq_pure_bind]
  exact h.bind fun b g => pure (k b g)

/-- What is read may differ if it makes no difference. -/
theorem read_bind {f : σ → ExceptT ε (StateM σ) γ}
    (h : ∀ s t, P s t → f s = f t ∧ Repeats P (f s) good') : Repeats P (get >>= f) good' :=
  Alike.read_bind fun s t k => (h s t k).1 ▸ (h s t k).2

/-- A computation with a settled result repeats it. -/
theorem of_settles {kept : σ → Prop} {result : Option β} (h : Settles kept x result)
    (told : ∀ b, result = some b → good b) : Repeats (fun s t => kept s ∧ kept t) x good := by
  rintro s t ⟨hs, ht⟩
  have here : ∀ b, (answer x s).1 = .ok b → good b := fun b e =>
    told b ((h s hs).1.symm.trans (toOption_eq_some.2 e))
  exact ((h.alike s t ⟨hs, ht⟩).told here).imp fun _ _ m => ⟨m.1.1, m.2, m.1.2⟩

end Repeats

end Counsel.Outcome

/-! ## Steps that repeat -/

namespace Counsel.Step

open Outcome

variable {σ τ β : Type}

/-- Whatever is given back repeats itself. -/
theorem repeats_ofLayout {P : σ → σ → Prop} {result : Except LayoutError β} {good : β → Prop}
    (h : ∀ b, result = .ok b → good b) : Repeats P (ofLayout result) good := by
  cases result with
  | error e => exact Alike.throw _ _
  | ok b => exact .pure (h b rfl)

/-- From one state a step repeats itself. -/
theorem Ensures.repeats {kept : σ → Prop} {step : Step σ β} {good : β → Prop}
    (h : Ensures kept step fun b s => kept s ∧ good b) :
    Repeats (fun s t => s = t ∧ kept s) step good := by
  rintro s _ ⟨rfl, hs⟩
  exact both_self fun b e => have k := h s hs b _ (Prod.ext e rfl); ⟨rfl, k.2, rfl, k.1⟩

/-- A step of a part repeats itself where the step does. -/
theorem repeats_within {P : σ → σ → Prop} {Q : τ → τ → Prop} {part : τ → σ} {replace : τ → σ → τ}
    {step : Step σ β} {good : β → Prop} (h : Repeats P step good) (enter : ∀ w z, Q w z → P (part w) (part z))
    (leave : ∀ w z, Q w z → ∀ s t, P s t → Q (replace w s) (replace z t)) :
    Repeats Q (within part replace step) good := by
  intro w z k
  have inner := h (part w) (part z) (enter w z k)
  exact inner.imp fun b c m => ⟨m.1, m.2.1, leave w z k _ _ m.2.2⟩

theorem repeats_times {P : σ → σ → Prop} {step : Step σ β} {good : β → Prop} (h : Repeats P step good)
    (n : Nat) : Repeats P (step.times n) fun bs => ∀ b ∈ bs, good b := by
  induction n with
  | zero => exact .pure fun _ none => absurd none List.not_mem_nil
  | succ n ih =>
    refine h.bind fun b first => ih.bind fun bs rest => ?_
    exact .pure (List.forall_mem_cons.2 ⟨first, rest⟩)

end Counsel.Step
