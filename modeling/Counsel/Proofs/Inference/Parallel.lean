/-
Inference from two numbers. A message about a factor shows its number, which depends on how many numbers
were given out before; two errors are compared with these numbers taken out (`Error.unnumbered`). Two
results match if both are there and related, or if both are errors that are (`Outcome.Matched`), and two
steps of inference are parallel if their answers match from any two numbers (`Infer.Parallel`).
-/
import Counsel.Proofs.Outcome
import Counsel.Error

namespace Counsel

/-! ## Errors without numbers -/

/-- A label without the number of its factor. -/
def FactorLabel.unnumbered (label : FactorLabel) : FactorLabel := { label with number := 0 }

def ModelError.unnumbered : ModelError → ModelError
  | .tableSize table expected actual => .tableSize table.unnumbered expected actual
  | .notConditional factor => .notConditional factor.unnumbered
  | error => error

def OrderFault.unnumbered : OrderFault → OrderFault
  | .outside factor name => .outside factor.unnumbered name
  | .freeVariables factor => .freeVariables factor.unnumbered
  | fault => fault

def InferenceError.unnumbered : InferenceError → InferenceError
  | .model error => .model error.unnumbered
  | .illegalOrder place fault => .illegalOrder place fault.unnumbered
  | error => error

/-- An error without the numbers of factors. -/
def Error.unnumbered : Error → Error
  | .model error => .model error.unnumbered
  | .inference error => .inference error.unnumbered
  | error => error

/-! ## Results -/

namespace Outcome

variable {ε ε' α β γ δ : Type}

/-- Both results are there, and related, or both are errors, and related. -/
inductive Matched (E : ε → ε' → Prop) (R : β → γ → Prop) : Except ε β → Except ε' γ → Prop
  | ok {b : β} {c : γ} (h : R b c) : Matched E R (.ok b) (.ok c)
  | error {e : ε} {e' : ε'} (h : E e e') : Matched E R (.error e) (.error e')

theorem Matched.refl {E : ε → ε → Prop} {R : β → β → Prop} (errors : ∀ e, E e e) (answers : ∀ b, R b b)
    (r : Except ε β) : Matched E R r r := by
  cases r with
  | ok b => exact .ok (answers b)
  | error e => exact .error (errors e)

theorem Matched.bind {E : ε → ε' → Prop} {R : β → γ → Prop} {S : α → δ → Prop} {r : Except ε β}
    {r' : Except ε' γ} {f : β → Except ε α} {g : γ → Except ε' δ} (h : Matched E R r r')
    (k : ∀ b c, R b c → Matched E S (f b) (g c)) : Matched E S (r >>= f) (r' >>= g) := by
  cases h with
  | ok h => exact k _ _ h
  | error h => exact .error h

end Outcome

/-! ## Steps of inference -/

namespace Infer

open Outcome

variable {β γ β' γ' ι κ : Type} {R : β → γ → Prop} {S : β' → γ' → Prop}

/-- The answers are related, or the errors are the same but for the numbers of factors. -/
abbrev Answers (R : β → γ → Prop) : Except InferenceError β → Except InferenceError γ → Prop :=
  Matched (fun e e' => e.unnumbered = e'.unnumbered) R

/-- The answers of two steps match, whatever numbers were given out before. -/
def Parallel (R : β → γ → Prop) (x : Infer β) (y : Infer γ) : Prop :=
  ∀ n m, Answers R (answer x n).1 (answer y m).1

/-- After answers that match, what is known of the two runs may be used. -/
theorem answers_bind {x : Infer β} {y : Infer γ} {f : β → Infer β'} {g : γ → Infer γ'} {n m : Nat}
    (h : Answers R (answer x n).1 (answer y m).1)
    (k : ∀ b c n' m', answer x n = (.ok b, n') → answer y m = (.ok c, m') → R b c →
      Answers S (answer (f b) n').1 (answer (g c) m').1) :
    Answers S (answer (x >>= f) n).1 (answer (y >>= g) m).1 := by
  rw [answer_bind, answer_bind]
  rcases hx : answer x n with ⟨r, n'⟩
  rcases hy : answer y m with ⟨r', m'⟩
  rw [hx, hy] at h
  cases h with
  | ok same => exact k _ _ n' m' hx hy same
  | error same => exact .error same

namespace Parallel

theorem bind {x : Infer β} {y : Infer γ} {f : β → Infer β'} {g : γ → Infer γ'} (h : Parallel R x y)
    (k : ∀ b c, R b c → Parallel S (f b) (g c)) : Parallel S (x >>= f) (y >>= g) :=
  fun n m => answers_bind (h n m) fun b c n' m' _ _ same => k b c same n' m'

theorem pure {b : β} {c : γ} (h : R b c) : Parallel R (Pure.pure b) (Pure.pure c) := fun _ _ => .ok h

theorem throw {e e' : InferenceError} (h : e.unnumbered = e'.unnumbered) :
    Parallel R (MonadExcept.throw e) (MonadExcept.throw e') := fun _ _ => .error h

theorem nextNumber : Parallel (fun _ _ => True) nextNumber nextNumber := fun _ _ => .ok trivial

theorem ofModel {r : Except ModelError β} {r' : Except ModelError γ} (h : Matched Eq R r r') :
    Parallel R (Infer.ofModel r) (Infer.ofModel r') := by
  intro n m
  cases h with
  | ok h => exact .ok h
  | error h => exact .error (congrArg (InferenceError.unnumbered <| .model ·) h)

/-- Folds over one list, step by step. -/
theorem foldlM {f : β → ι → Infer β} {g : γ → ι → Infer γ} {items : List ι}
    (h : ∀ i b c, R b c → Parallel R (f b i) (g c i)) {b : β} {c : γ} (start : R b c) :
    Parallel R (items.foldlM f b) (items.foldlM g c) := by
  induction items generalizing b c with
  | nil => exact pure start
  | cons i rest ih =>
    rw [List.foldlM_cons, List.foldlM_cons]
    exact (h i b c start).bind fun _ _ => ih

/-- A step for each of some items that are in step with others. -/
theorem mapM {T : ι → κ → Prop} {f : ι → Infer β} {g : κ → Infer γ}
    (h : ∀ i k, T i k → Parallel R (f i) (g k)) {items : List ι} {others : List κ}
    (both : List.Forall₂ T items others) :
    Parallel (List.Forall₂ R) (items.mapM f) (others.mapM g) := by
  induction both with
  | nil => exact pure .nil
  | cons head _ ih =>
    rw [List.mapM_cons, List.mapM_cons]
    exact (h _ _ head).bind fun _ _ first => ih.bind fun _ _ rest => pure (.cons first rest)

end Parallel

end Infer

end Counsel
