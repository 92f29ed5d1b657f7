/-
Mixed-radix numbers: joint positions in a list of finite domains, and their index. The first place
counts most. Positions and indices below the product of the bases match one to one
(`decode_encode`, `encode_decode`).
-/
namespace Counsel.MixedRadix

def size : List Nat → Nat
  | [] => 1
  | base :: rest => base * size rest

/-- The index of a joint position. -/
def encode : List Nat → List Nat → Nat
  | _ :: rest, digit :: digits => digit * size rest + encode rest digits
  | _, _ => 0

/-- How far apart in the index neighbouring positions of each place are. -/
def strides : List Nat → List Nat
  | [] => []
  | _ :: rest => size rest :: strides rest

def decode : List Nat → Nat → List Nat
  | [], _ => []
  | base :: rest, index => index / size rest % base :: decode rest index

/-- One position for each place, below its base. -/
def InRange : List Nat → List Nat → Prop
  | [], [] => True
  | base :: rest, digit :: digits => digit < base ∧ InRange rest digits
  | _, _ => False

instance inRangeDecidable : (bases digits : List Nat) → Decidable (InRange bases digits)
  | [], [] => .isTrue trivial
  | base :: rest, digit :: digits =>
    have := inRangeDecidable rest digits
    inferInstanceAs (Decidable (digit < base ∧ InRange rest digits))
  | [], _ :: _ => .isFalse id
  | _ :: _, [] => .isFalse id

/-- Indices are below this bound, so that they fit a machine word. -/
def indexLimit : Nat := Nat.pow 2 64

/-! ## Laws -/

theorem size_append (a b : List Nat) : size (a ++ b) = size a * size b := by
  induction a with
  | nil => simp [size]
  | cons x xs ih => simp [size, ih, Nat.mul_assoc]

theorem size_pos {bases : List Nat} (h : ∀ b ∈ bases, 0 < b) : 0 < size bases := by
  induction bases with
  | nil => exact Nat.one_pos
  | cons x xs ih =>
    exact Nat.mul_pos (h x List.mem_cons_self) (ih fun b hb => h b (List.mem_cons_of_mem _ hb))

/-- The index of a position in range is below the size. -/
theorem encode_lt {bases digits : List Nat} (h : InRange bases digits) :
    encode bases digits < size bases := by
  induction bases generalizing digits with
  | nil => cases digits <;> simp_all [InRange, encode, size]
  | cons base rest ih =>
    cases digits with
    | nil => exact absurd h id
    | cons digit digits =>
      have tail := ih h.2
      have : (digit + 1) * size rest ≤ base * size rest := Nat.mul_le_mul_right _ h.1
      simp only [encode, size]
      rw [Nat.add_mul, Nat.one_mul] at this
      omega

/-- A whole number of rounds does not change a position. -/
theorem decode_add_mul (bases : List Nat) (index k : Nat) :
    decode bases (index + k * size bases) = decode bases index := by
  induction bases generalizing index k with
  | nil => rfl
  | cons base rest ih =>
    by_cases h : size rest = 0
    · simp only [decode, size, h, Nat.mul_zero, Nat.add_zero]
    · have e : index + k * (base * size rest) = index + (k * base) * size rest := by
        rw [Nat.mul_assoc]
      simp only [decode, size]
      rw [e, ih, Nat.add_mul_div_right _ _ (Nat.pos_of_ne_zero h), Nat.add_mul_mod_self_right]

/-- The position of the index of a position in range. -/
theorem decode_encode {bases digits : List Nat} (h : InRange bases digits) :
    decode bases (encode bases digits) = digits := by
  induction bases generalizing digits with
  | nil => cases digits <;> simp_all [InRange, decode]
  | cons base rest ih =>
    cases digits with
    | nil => exact absurd h id
    | cons digit digits =>
      have tail := encode_lt h.2
      simp only [encode, decode]
      rw [Nat.add_comm, decode_add_mul, ih h.2,
        Nat.add_mul_div_right _ _ (Nat.lt_of_le_of_lt (Nat.zero_le _) tail),
        Nat.div_eq_of_lt tail, Nat.zero_add, Nat.mod_eq_of_lt h.1]

/-- The index of the position of an index, modulo the size. -/
theorem encode_decode_mod (bases : List Nat) (index : Nat) :
    encode bases (decode bases index) = index % size bases := by
  induction bases with
  | nil => simp [encode, size, Nat.mod_one]
  | cons base rest ih =>
    simp only [encode, decode, size, ih]
    rw [Nat.mul_comm base, Nat.mod_mul, Nat.mul_comm (size rest), Nat.add_comm]

/-- The index of the position of an index below the size. -/
theorem encode_decode {bases : List Nat} {index : Nat} (h : index < size bases) :
    encode bases (decode bases index) = index := by
  rw [encode_decode_mod, Nat.mod_eq_of_lt h]

/-- The position of an index is in range when no place is without positions. -/
theorem decode_inRange {bases : List Nat} (h : ∀ b ∈ bases, 0 < b) (index : Nat) :
    InRange bases (decode bases index) := by
  induction bases with
  | nil => trivial
  | cons base rest ih =>
    exact ⟨Nat.mod_lt _ (h base List.mem_cons_self),
      ih fun b hb => h b (List.mem_cons_of_mem _ hb)⟩

end Counsel.MixedRadix
