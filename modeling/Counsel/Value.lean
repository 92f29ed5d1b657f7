/-
Domain values. Truth values come before integers and integers before texts; texts are ordered by
their characters, which is the order of their UTF-8 bytes.
-/
namespace Counsel

/-- A value that a variable of a decision problem can take. -/
inductive Value where
  | bool (b : Bool)
  | int (n : Int)
  | text (s : String)
  deriving DecidableEq, Inhabited

namespace Value

/-- The domain of a yes-or-no variable, `false` first. -/
def boolean : List Value := [.bool false, .bool true]

/-- The truth value held, if it is one. -/
def asBool? : Value → Option Bool
  | .bool b => some b
  | _ => none

def render : Value → String
  | .bool true => "true"
  | .bool false => "false"
  | .int n => toString n
  | .text s => s

/-- The order of values, kind by kind. -/
protected def le : Value → Value → Bool
  | .bool a, .bool b => !a || b
  | .bool _, _ => true
  | .int _, .bool _ => false
  | .int a, .int b => decide (a ≤ b)
  | .int _, .text _ => true
  | .text _, .bool _ => false
  | .text _, .int _ => false
  | .text a, .text b => decide (a ≤ b)

theorem le_total (a b : Value) : a.le b || b.le a := by
  cases a <;> cases b <;> simp [Value.le]
  case bool a b => cases a <;> cases b <;> simp
  case int a b => omega
  case text a b => exact Std.le_total

theorem le_trans {a b c : Value} (h : a.le b) (k : b.le c) : a.le c := by
  cases a <;> cases b <;> cases c <;> simp_all [Value.le]
  case bool.bool.bool => grind
  case int.int.int => omega
  case text.text.text => exact Std.le_trans h k

theorem le_antisymm {a b : Value} (h : a.le b) (k : b.le a) : a = b := by
  cases a <;> cases b <;> simp_all [Value.le]
  case bool.bool a b => cases a <;> cases b <;> simp_all
  case int.int => omega
  case text.text => exact Std.le_antisymm h k

/-- A list of values in ascending order; equal values keep their places. -/
def sorted (values : List Value) : List Value := values.mergeSort Value.le

end Value

end Counsel
