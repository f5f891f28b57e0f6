import AesCore.Fips197

/-!
# Word arrays in memory

The test bench keeps text, key and state in arrays of four C words and reads them
byte by byte through pointers, on a little-endian machine. As a state of the
standard, column `c` is word `c` and row `r` its byte `r` in memory. As a 128-bit
vector on the pins of the hardware, word 0 is the lowest.

The two readings differ by the order of the sixteen bytes, which is what the
`rearrange` functions of the bench reverse.
-/

namespace AesCore

open ByteField (Byte)
open Fips197

/-- A C array of four words, the form in which programs hold a text or a key. -/
abbrev WordArray := Vector Word 4

namespace WordArray

/-- Byte `r` of a word in memory. Words are little-endian, so byte zero is the lowest
one. -/
def byteAt (word : Word) (r : Fin 4) : Byte := word.extractLsb' (8 * r.val) 8

/-- The word with four given bytes in memory, the first one in its lowest bits. -/
def littleEndian (b0 b1 b2 b3 : Byte) : Word := b3 ++ b2 ++ b1 ++ b0

/-- An array is not empty. All literals of its byte index rest on this one instance. -/
instance bytesNeZero : @NeZero Nat Zero.ofOfNat0 16 := ⟨Nat.succ_ne_zero 15⟩

/-- The array of four given words, the first one at index zero. -/
def four (w0 w1 w2 w3 : Word) : WordArray := #v[w0, w1, w2, w3]

/-- Byte `i` of an array in memory, as a pointer to characters sees it. -/
def bytes (words : WordArray) (i : Fin 16) : Byte :=
  byteAt (words.get ⟨i.val / 4, by omega⟩) ⟨i.val % 4, by omega⟩

/-- The array with sixteen given bytes in memory, each word from four of them. -/
def fromBytes (n : Fin 16 → Byte) : WordArray :=
  four (littleEndian (n 0) (n 1) (n 2) (n 3)) (littleEndian (n 4) (n 5) (n 6) (n 7))
    (littleEndian (n 8) (n 9) (n 10) (n 11)) (littleEndian (n 12) (n 13) (n 14) (n 15))

/-- The array with the bytes of another one in the opposite order, as the loops of the test
bench leave it. -/
def reversed (words : WordArray) : WordArray := fromBytes fun i => bytes words (15 - i)

/-- An array on the pins, with word 0 in bits 31:0. The bytes of a text come out in the
opposite order. -/
def block (words : WordArray) : Block := words.get 3 ++ words.get 2 ++ words.get 1 ++ words.get 0

/-- Exclusive or of two arrays, word by word. The order of the bytes does not matter to
it. -/
def xorWords (state key : WordArray) : WordArray :=
  four (state.get 0 ^^^ key.get 0) (state.get 1 ^^^ key.get 1) (state.get 2 ^^^ key.get 2)
    (state.get 3 ^^^ key.get 3)

/-- A word as the standard writes it, with the first byte in memory leftmost. -/
def swap (word : Word) : Word :=
  ofBytes (byteAt word 0) (byteAt word 1) (byteAt word 2) (byteAt word 3)

/-- An array as a state of the standard: the bytes in memory fill the state by columns. -/
def view (words : WordArray) : State := fun r c => byteAt (words.get c) r

/-- An array as a round key of the standard, each word with its bytes swapped. -/
def keyView (words : WordArray) : Fin 4 → Word := fun c => swap (words.get c)

/-- The words of an array, by index, are the words it was formed from. -/
theorem get_words (w0 w1 w2 w3 : Word) : (four w0 w1 w2 w3).get 0 = w0 ∧
    (four w0 w1 w2 w3).get 1 = w1 ∧ (four w0 w1 w2 w3).get 2 = w2 ∧
      (four w0 w1 w2 w3).get 3 = w3 :=
  ⟨rfl, rfl, rfl, rfl⟩

/-- The bytes of a word are those it was formed from, each in its place. -/
theorem byte_at_little_endian (b : Fin 4 → Byte) (r : Fin 4) :
    byteAt (littleEndian (b 0) (b 1) (b 2) (b 3)) r = b r := by
  obtain ⟨last, third, second, first⟩ := extract_quarters (b 3) (b 2) (b 1) (b 0)
  match r with
  | 0 => exact first
  | 1 => exact second
  | 2 => exact third
  | 3 => exact last

/-- Words add byte by byte, so an equation between words is four between bytes. -/
theorem byte_at_xor (a b : Word) (r : Fin 4) : byteAt (a ^^^ b) r = byteAt a r ^^^ byteAt b r :=
  BitVec.extractLsb'_xor

/-- Byte `r` in memory is byte `3 - r` from the left. It leads from the order of the machine
to that of the standard. -/
theorem byte_at_eq (word : Word) (r : Fin 4) : byteAt word r = wordByte word (3 - r) := by
  match r with
  | 0 | 1 | 2 | 3 => rfl

/-- Byte `r` in memory is byte `r` from the left of the swapped word. -/
theorem word_byte_swap (word : Word) (r : Fin 4) : wordByte (swap word) r = byteAt word r :=
  word_byte_of_bytes (byteAt word) r

/-- Words add byte by byte in either order, so a sum of swapped words is the swapped sum. -/
theorem swap_xor (a b : Word) : swap (a ^^^ b) = swap a ^^^ swap b := by
  apply word_ext
  intro r
  have distributed : wordByte (swap a ^^^ swap b) r = wordByte (swap a) r ^^^ wordByte (swap b) r :=
    BitVec.extractLsb'_xor
  rw [distributed, word_byte_swap, word_byte_swap, word_byte_swap, byte_at_xor]

/-- Adding arrays is adding a round key, once both are seen as the standard sees them. -/
theorem view_xor_words (state key : WordArray) :
    view (xorWords state key) = addRoundKey (keyView key) (view state) := by
  have words (c : Fin 4) : (xorWords state key).get c = state.get c ^^^ key.get c := by
    match c with
    | 0 | 1 | 2 | 3 => rfl
  funext r c
  rw [view, words, byte_at_xor, addRoundKey, keyView, word_byte_swap, view]

/-- A rotation by `s` bytes upwards takes byte `r` from `s` bytes below. Indices are taken
modulo four. -/
theorem byte_at_rotate_left (x : Word) (s r : Fin 4) :
    byteAt (x.rotateLeft (8 * s.val)) r = byteAt x (r - s) := by
  have shift : 8 * s.val % 32 = 8 * s.val := Nat.mod_eq_of_lt (by omega)
  apply BitVec.eq_of_getLsbD_eq
  intro i inside
  have within : 8 * r.val + i < 32 := by omega
  have position : 8 * (r - s).val + i =
      if 8 * r.val + i < 8 * s.val then 32 - 8 * s.val + (8 * r.val + i)
        else 8 * r.val + i - 8 * s.val := by
    have distance : (r - s).val = (4 - s.val + r.val) % 4 := rfl
    split <;> omega
  simp only [byteAt, BitVec.getLsbD_extractLsb', BitVec.getLsbD_rotateLeft, inside, within,
    decide_true, Bool.true_and, shift, position]
  by_cases wraps : 8 * r.val + i < 8 * s.val
  · simp only [wraps, decide_true, cond_true, ↓reduceIte]
  · simp only [wraps, decide_false, cond_false, ↓reduceIte]

/-- The index in memory of row `r` of column `c`. A state is laid out by columns. -/
def position (r c : Fin 4) : Fin 16 := ⟨r.val + 4 * c.val, by omega⟩

/-- The bytes of an array are the rows and columns of its view, by their positions. -/
theorem bytes_position (words : WordArray) (r c : Fin 4) :
    bytes words (position r c) = view words r c := by
  have quotient : (r.val + 4 * c.val) / 4 = c.val := by omega
  have remainder : (r.val + 4 * c.val) % 4 = r.val := by omega
  simp only [bytes, position, quotient, remainder, view]

/-- An array formed from bytes has these rows and columns, by their positions. -/
theorem view_from_bytes (n : Fin 16 → Byte) (r c : Fin 4) :
    view (fromBytes n) r c = n (position r c) := by
  have columns (c : Fin 4) := byte_at_little_endian (fun r => n (position r c)) r
  match c with
  | 0 => exact columns 0
  | 1 => exact columns 1
  | 2 => exact columns 2
  | 3 => exact columns 3

/-- Reversal turns rows and columns around: the last byte comes first. -/
theorem view_reversed (words : WordArray) (r c : Fin 4) :
    view (reversed words) r c = view words (3 - r) (3 - c) := by
  have turned : 15 - position r c = position (3 - r) (3 - c) := by
    revert r c
    decide
  rw [reversed, view_from_bytes, turned, bytes_position]

/-- Counting from the other end, twice, gives an index back. So turning around twice does nothing. -/
theorem three_sub_three_sub : ∀ r : Fin 4, 3 - (3 - r) = r := by decide

/-- Arrays with the same bytes are equal. Equations between arrays are proved in this
way. -/
theorem view_injective {left right : WordArray} (same : view left = view right) :
    left = right := by
  have words (c : Fin 4) : left.get c = right.get c := by
    apply word_ext
    intro r
    have byte := congrFun (congrFun same (3 - r)) c
    simp only [view, byte_at_eq, three_sub_three_sub] at byte
    exact byte
  exact Vector.ext fun i inside => words ⟨i, inside⟩

/-- Reversing twice changes nothing, so what the test bench reverses on the way in it
restores on the way out. -/
theorem reversed_reversed (words : WordArray) : reversed (reversed words) = words := by
  apply view_injective
  funext r c
  rw [view_reversed, view_reversed, three_sub_three_sub, three_sub_three_sub]

/-- The words of an array on the pins, from the highest down: the standard's first word is
the array's last. -/
theorem block_word_block (words : WordArray) (c : Fin 4) :
    blockWord (block words) c = words.get (3 - c) :=
  block_word_of_words (fun i => words.get (3 - i)) c

/-- The reversed array is the state that the standard reads from the pins. This is why the
test bench reverses the bytes. -/
theorem view_reversed_block (words : WordArray) :
    view (reversed words) = toState (block words) := by
  funext r c
  rw [view_reversed, toState, block_word_block, view, byte_at_eq, three_sub_three_sub]

/-- Its words are those of the standard, so a reversed key is a round key zero as it should
be. -/
theorem key_view_reversed_block (words : WordArray) :
    keyView (reversed words) = blockWord (block words) := by
  funext c
  apply word_ext
  intro r
  exact (word_byte_swap _ r).trans (congrFun (congrFun (view_reversed_block words) r) c)

/-- An array whose state the standard writes to the pins is, reversed, on the pins. So the
answer has to be reversed too. -/
theorem block_reversed {words : WordArray} {state : State} (same : view words = state) :
    block (reversed words) = ofState state := by
  rw [← of_state_to_state (block (reversed words)), ← view_reversed_block, reversed_reversed, same]

/-- A block on the pins is an array exactly where it is word by word, which is how the
checker compares them. -/
theorem eq_block_iff (text : Block) (words : WordArray) : text = block words ↔
    text.extractLsb 31 0 = words.get 0 ∧ text.extractLsb 63 32 = words.get 1 ∧
      text.extractLsb 95 64 = words.get 2 ∧ text.extractLsb 127 96 = words.get 3 := by
  constructor
  · rintro rfl
    exact ⟨block_word_block words 3, block_word_block words 2, block_word_block words 1,
      block_word_block words 0⟩
  · rintro ⟨w0, w1, w2, w3⟩
    rw [block, ← w0, ← w1, ← w2, ← w3]
    exact (of_words_block_word text).symm

end WordArray

end AesCore
