/-
Sources of random draws. A source is a value: a draw gives a number and the source that is left.
Nothing above this module depends on how the draws come about, only on their ranges.
-/
import Counsel.Scalar

namespace Counsel

/-- How many fractions a unit draw can give, `2 ^ 53`. -/
def unitSteps : Nat := 9007199254740992

/-- A supply of random draws, determined by the seed it starts from. -/
class RandomSource (γ : Type) where
  ofSeed : UInt64 → γ
  /-- A draw from `[0, 1)`, in units of `2 ^ -53`. -/
  unit : γ → Nat × γ
  /-- A draw from the numbers below a bound. -/
  below : Nat → γ → Nat × γ
  /-- A draw from all 64-bit words. -/
  word : γ → UInt64 × γ
  unit_lt : ∀ source, (unit source).1 < unitSteps
  below_lt : ∀ bound source, 0 < bound → (below bound source).1 < bound

namespace RandomSource

variable {α γ : Type} [Scalar α] [RandomSource γ]

/-- A draw from `[0, 1)` as a number. -/
def fraction (source : γ) : α × γ :=
  let (steps, rest) := unit source
  (Scalar.ofNat steps / Scalar.ofNat unitSteps, rest)

end RandomSource

end Counsel
