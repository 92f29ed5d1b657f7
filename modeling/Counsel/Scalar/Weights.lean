/-
Lists of numbers as weights: totals, probability vectors, the first largest entry, and the two ways
to average outcomes.
-/
import Counsel.Scalar

namespace Counsel.Scalar

variable {α : Type} [Scalar α]

/-- The total, added from the left. -/
def total : List α → α
  | [] => 0
  | x :: rest => rest.foldl (· + ·) x

/-- The weights divided by their total; nothing if the total is not positive or not finite. -/
def normalize (weights : List α) : Option (List α) :=
  let mass := total weights
  if isFinite mass && decide (0 < mass) then some (weights.map (· / mass)) else none

/-- The better of the best entry so far and the next one; undefined entries are passed over. -/
def betterOf (best : Option (Nat × α)) (index : Nat) (x : α) : Option (Nat × α) :=
  if x != x then best
  else match best with
    | none => some (index, x)
    | some (i, b) => if x ≤ b then some (i, b) else some (index, x)

/-- The best entry of a list whose first entry has the given index. -/
def bestFrom (best : Option (Nat × α)) (index : Nat) : List α → Option (Nat × α)
  | [] => best
  | x :: rest => bestFrom (betterOf best index x) (index + 1) rest

/-- The index of the first largest entry; undefined entries are never chosen. -/
def argmaxFirst (values : List α) : Option Nat := (bestFrom none 0 values).map (·.1)

/-- The largest entry, undefined ones aside. -/
def largest : List α → Option α
  | [] => none
  | x :: rest => some (rest.foldl larger x)

/-- The average of a value and an observation that counts by `weight`. -/
def blend (previous observation weight : α) : α := (1 - weight) * previous + weight * observation

/-- The share of `part` in `part + other`, or `fallback` if the whole is not positive and finite. -/
def share (part other fallback : α) : α :=
  let whole := part + other
  if decide (0 < whole) && isFinite whole then part / whole else fallback

end Counsel.Scalar
