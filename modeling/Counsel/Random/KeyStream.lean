/-
The random source of programs: the ChaCha stream cipher with twelve rounds, keyed from a 64-bit
seed. The words of successive blocks form one sequence, and every draw takes the next words of it.
-/
import Counsel.Random.Source

namespace Counsel

/-- The position in a key stream: the key, the number of the next block, and the words at hand. -/
structure KeyStream where
  key : List UInt32
  block : UInt64
  words : List UInt32

namespace KeyStream

/-! ## Blocks -/

/-- The sixteen words that a block is computed in. -/
abbrev Block := Vector UInt32 16

/-- A word turned left by `count` bits. -/
def turnLeft (x : UInt32) (count : UInt32) : UInt32 := (x <<< count) ||| (x >>> (32 - count))

/-- The mixing of four words of a block. -/
def quarterRound (a b c d : Fin 16) (s : Block) : Block :=
  let s := s.set a (s[a] + s[b])
  let s := s.set d (turnLeft (s[d] ^^^ s[a]) 16)
  let s := s.set c (s[c] + s[d])
  let s := s.set b (turnLeft (s[b] ^^^ s[c]) 12)
  let s := s.set a (s[a] + s[b])
  let s := s.set d (turnLeft (s[d] ^^^ s[a]) 8)
  let s := s.set c (s[c] + s[d])
  s.set b (turnLeft (s[b] ^^^ s[c]) 7)

/-- A round down the columns and one down the diagonals. -/
def doubleRound (s : Block) : Block :=
  let s := quarterRound 0 4 8 12 s
  let s := quarterRound 1 5 9 13 s
  let s := quarterRound 2 6 10 14 s
  let s := quarterRound 3 7 11 15 s
  let s := quarterRound 0 5 10 15 s
  let s := quarterRound 1 6 11 12 s
  let s := quarterRound 2 7 8 13 s
  quarterRound 3 4 9 14 s

/-- The block of a key and a block number before mixing: the constant `expand 32-byte k`, the key,
the number, and two zero words. -/
def initial (key : List UInt32) (block : UInt64) : Block :=
  let word (i : Nat) : UInt32 := key.getD i 0
  #v[0x61707865, 0x3320646e, 0x79622d32, 0x6b206574,
    word 0, word 1, word 2, word 3, word 4, word 5, word 6, word 7,
    block.toUInt32, (block >>> 32).toUInt32, 0, 0]

/-- The words of one block. -/
def blockWords (key : List UInt32) (block : UInt64) : List UInt32 :=
  let start := initial key block
  let mixed := Nat.repeat doubleRound 6 start
  (mixed.zipWith (· + ·) start).toList

/-! ## Seeds and draws -/

/-- So many key words from a generator state. -/
def keyWords : Nat → UInt64 → List UInt32
  | 0, _ => []
  | count + 1, state =>
    let state := state * 6364136223846793005 + 11634580027462260723
    let x : UInt32 := (((state >>> 18) ^^^ state) >>> 27).toUInt32
    let turn : UInt32 := (state >>> 59).toUInt32
    let word := (x >>> turn) ||| (x <<< ((32 - turn) % 32))
    word :: keyWords count state

/-- The stream of a seed. -/
def ofSeed (seed : UInt64) : KeyStream := ⟨keyWords 8 seed, 0, []⟩

/-- The next word of the stream. -/
def next (s : KeyStream) : UInt32 × KeyStream :=
  match s.words with
  | w :: rest => (w, { s with words := rest })
  | [] =>
    match blockWords s.key s.block with
    | w :: rest => (w, ⟨s.key, s.block + 1, rest⟩)
    | [] => (0, ⟨s.key, s.block + 1, []⟩)

/-- The next two words as one, the low half first. -/
def word (s : KeyStream) : UInt64 × KeyStream :=
  let (low, s) := s.next
  let (high, s) := s.next
  (low.toUInt64 ||| (high.toUInt64 <<< 32), s)

/-- How many 32-bit words there are. -/
def wordCount : Nat := 4294967296

def unit (s : KeyStream) : Nat × KeyStream :=
  let (w, s) := s.word
  (w.toNat / 2048, s)

/-- The high half of the next word times `bound`. Where the low half leaves the draw open, a
second word decides it. -/
def below (bound : Nat) (s : KeyStream) : Nat × KeyStream :=
  let (w, s) := s.next
  let product := w.toNat * bound
  let result := product / wordCount
  let low := product % wordCount
  if (wordCount - bound) % wordCount < low then
    let (w', s) := s.next
    if wordCount ≤ low + w'.toNat * bound / wordCount then (result + 1, s) else (result, s)
  else (result, s)

theorem unit_lt (s : KeyStream) : s.unit.1 < unitSteps := by
  have := s.word.1.toNat_lt
  simp only [unit, unitSteps]
  omega

theorem below_lt (bound : Nat) (s : KeyStream) (h : 0 < bound) : (s.below bound).1 < bound := by
  have bounded : ∀ w : UInt32, w.toNat * bound / wordCount < bound := fun w => by
    rw [Nat.div_lt_iff_lt_mul (by decide), Nat.mul_comm]
    exact Nat.mul_lt_mul_of_pos_left w.toNat_lt h
  simp only [below]
  split
  · split
    next _ carry =>
      have second := bounded s.next.2.next.1
      have first : s.next.1.toNat * bound ≤ (wordCount - 1) * bound :=
        Nat.mul_le_mul_right bound (Nat.le_sub_one_of_lt s.next.1.toNat_lt)
      have parts := Nat.div_add_mod (s.next.1.toNat * bound) wordCount
      simp only [wordCount] at carry second first parts ⊢
      omega
    · exact bounded _
  · exact bounded _

instance : RandomSource KeyStream where
  ofSeed := ofSeed
  unit := unit
  below := below
  word := word
  unit_lt := unit_lt
  below_lt := below_lt

end KeyStream

end Counsel
