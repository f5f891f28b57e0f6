import AesCore.GoldenCipher
import AesCore.KeyLengths

/-!
# The other ciphers of the golden model

`aes.c` holds three more ciphers beside the one the test bench calls.
`encrypt_128_key_expand_inline` does all ten rounds in one loop and masks the
table words in the last one. `encrypt_192_key_expand_inline_no_branch` and
`encrypt_256_key_expand_inline_no_branch` keep a window of six or eight words of
the schedule in local variables, and jump into the middle of their loops, because
the first iteration finds its first words in the key.

A window moves by whole groups of the schedule. An iteration uses up three round
keys of four words from two groups of six, or two round keys from one group of
eight, so the words that one round adds come from different places of the window
at different rounds.
-/

namespace AesCore.GoldenCipher

open ByteField (Byte sBox)
open Fips197
open WordArray

/-- Macros `table_lookup` and `final_mask`: the words `p0` to `p3`, masked to one byte each
in the final round and rotated in the others. Of an entry the mask keeps a byte that is the
S-box; for `p2` and `p3` this byte is rotated into place first. -/
def finalMask (isFinalRound : Bool) (y : Word) : WordArray :=
  let p0 := t0 (byteAt y 0)
  let p1 := t0 (byteAt y 1)
  let p2 := t0 (byteAt y 2)
  let p3 := t0 (byteAt y 3)
  if isFinalRound then
    four (p0 &&& 0xFF#32) (p1 &&& 0xFF00#32) (rot16 p2 &&& 0xFF0000#32)
      (rotDown8 p3 &&& 0xFF000000#32)
  else
    four (rotUp8 p0) (rot16 p1) (rotDown8 p2) p3

/-- The body of the loop of `encrypt_128_key_expand_inline` in iteration `i`. The sums are
the same in all rounds, only the words that enter them depend on `is_final_round`. -/
def inlineBody (i : Nat) (s : Loop) : Loop :=
  let k := expand s.k s.rcon
  let mask := finalMask (i == 10)
  { state := accumulate k (mask (s.state.get 0)) (mask (s.state.get 1)) (mask (s.state.get 2))
      (mask (s.state.get 3))
    k, rcon := nextRcon s.rcon }

/-- The variables before iteration `i + 1`. The iterations count from one in the source, so
the body that leads here was number `i`. -/
def inlineLoop (state key : WordArray) : Nat → Loop
  | 0 => ⟨xorWords state key, key, 0x01#8⟩
  | i + 1 => inlineBody (i + 1) (inlineLoop state key i)

/-- Function `encrypt_128_key_expand_inline`: the state array it leaves after ten
iterations. There is nothing behind the loop. -/
def encrypt128KeyExpandInline (state key : WordArray) : WordArray := (inlineLoop state key 10).state

/-- A mask of one byte keeps that byte and clears the others, for each of the four masks at
once. -/
theorem byte_at_mask (x : Word) (i r : Fin 4) :
    byteAt (x &&& (0xFF#32 <<< (8 * i.val))) r = if i = r then byteAt x r else 0#8 := by
  have masks : ∀ i r : Fin 4,
      byteAt (0xFF#32 <<< (8 * i.val)) r = if i = r then BitVec.allOnes 8 else 0#8 := by
    decide
  have distributed : byteAt (x &&& (0xFF#32 <<< (8 * i.val))) r =
      byteAt x r &&& byteAt (0xFF#32 <<< (8 * i.val)) r :=
    BitVec.extractLsb'_and
  rw [distributed, masks]
  by_cases same : i = r
  · rw [if_pos same, if_pos same, BitVec.and_allOnes]
  · rw [if_neg same, if_neg same, BitVec.and_zero]

/-- The masked words `p0` to `p3` hold the substituted bytes of a word, each in its place.
The byte that is kept is one of the two in an entry that repeat the S-box. -/
theorem byte_at_final_mask (y : Word) (i r : Fin 4) :
    byteAt ((finalMask true y).get i) r = if i = r then sBox (byteAt y i) else 0#8 := by
  have first (x : Byte) : byteAt (t0 x) 0 = sBox x :=
    (byte_at_t0 x 0).trans (CipherTop.mix_coefficients (sBox x)).2.2
  have second (x : Byte) : byteAt (t0 x) 1 = sBox x :=
    (byte_at_t0 x 1).trans (CipherTop.mix_coefficients (sBox x)).2.2
  have masked {x : Word} (found : byteAt x i = sBox (byteAt y i)) :
      byteAt (x &&& (0xFF#32 <<< (8 * i.val))) r = if i = r then sBox (byteAt y i) else 0#8 := by
    rw [byte_at_mask]
    by_cases same : i = r
    · rw [if_pos same, if_pos same, ← same, found]
    · rw [if_neg same, if_neg same]
  match i with
  | 0 => exact masked (first _)
  | 1 => exact masked (second _)
  | 2 => exact masked ((byte_at_rotations _ 2).2.1.trans (first _))
  | 3 => exact masked ((byte_at_rotations _ 3).2.2.trans (first _))

/-- The masked round is the last round of the other function. Each sum takes one byte from
each of four words, and these are the sixteen bytes that the other function picks one by
one. -/
theorem accumulate_final_mask (k state : WordArray) :
    accumulate k (finalMask true (state.get 0)) (finalMask true (state.get 1))
      (finalMask true (state.get 2)) (finalMask true (state.get 3)) = lastRound k state := by
  apply view_injective
  rw [view_last_round]
  funext r c
  have collected := accumulate_get k (fun c => finalMask true (state.get c)) c
  refine (congrArg (fun word => byteAt word r) collected).trans ?_
  have chosen : byteAt (k.get c) r ^^^ sBox (byteAt (state.get (c + r)) r) =
      layers.add (keyView k) (layers.sub (view state)) r c := by
    rw [BitVec.xor_comm, ← word_byte_swap (k.get c)]
    rfl
  rw [← chosen]
  simp only [byte_at_xor, byte_at_final_mask]
  match r with
  | 0 | 1 | 2 | 3 => simp

/-- Before the final round the loop is that of the other function, by induction: up to there
the mask is not applied. -/
theorem inline_loop_eq (state key : WordArray) {i : Nat} (bounded : i < 10) :
    inlineLoop state key i = loop state key i := by
  induction i with
  | zero => rfl
  | succ i inductionHypothesis =>
    have inner : (i + 1 == 10) = false := beq_false_of_ne (by omega)
    rw [inlineLoop, loop, inductionHypothesis (by omega), inlineBody, inner]
    rfl

/-- The branch makes no difference: the two functions for keys of 128 bits agree on every
state and key. -/
theorem inline_eq_no_branch (state key : WordArray) :
    encrypt128KeyExpandInline state key = encrypt128KeyExpandInlineNoBranch state key := by
  rw [encrypt128KeyExpandInline, inlineLoop, inline_loop_eq state key (Nat.lt_succ_self 9),
    encrypt128KeyExpandInlineNoBranch]
  exact accumulate_final_mask _ _

/-- The words of a key array as the standard writes them, first byte highest. In memory the
first byte is the lowest. -/
def keyWords {n : Nat} (key : Vector Word n) : List Word := key.toList.map swap

/-- Four words in memory are those of the block they form, so that the general schedule
meets the one for 128 bits. -/
theorem key_words_eq (key : WordArray) : keyWords key = blockWords (ofState (view key)) := by
  have word (c : Fin 4) : blockWord (ofState (view key)) c = swap (key.get c) := by
    rw [block_word_of_state]
    rfl
  have entries : key = four (key.get 0) (key.get 1) (key.get 2) (key.get 3) := by
    apply Vector.ext
    intro i inside
    match i with
    | 0 | 1 | 2 | 3 => rfl
  rw [blockWords, word, word, word, word, keyWords, entries]
  rfl

/-- `encrypt_128_key_expand_inline` computes Cipher with a key of four words, as the
function without a branch does. Stated with the cipher for all key lengths, so that the
three functions are measured by one standard. -/
theorem encrypt_128_exact (state key : WordArray) :
    encrypt128KeyExpandInline state key = encrypt128KeyExpandInlineNoBranch state key ∧
      ofState (view (encrypt128KeyExpandInline state key)) =
        cipherOf (keyWords key) (ofState (view state)) := by
  have words : keyView key = blockWord (ofState (view key)) := by
    funext c
    exact (block_word_of_state (view key) c).symm
  refine ⟨inline_eq_no_branch state key, ?_⟩
  rw [inline_eq_no_branch, key_words_eq, cipher_of_block_words]
  exact view_encrypt words (to_state_of_state (view state)).symm

/-- A key of six words is not empty. All literals of its index rest on this one instance, so
that they are the same term wherever they are written. -/
instance sixNeZero : @NeZero Nat Zero.ofOfNat0 6 := ⟨Nat.succ_ne_zero 5⟩

/-- A key of eight words is not empty. All literals of its index rest on this one instance,
so that they are the same term wherever they are written. -/
instance eightNeZero : @NeZero Nat Zero.ofOfNat0 8 := ⟨Nat.succ_ne_zero 7⟩

/-- The variables of `encrypt_192_key_expand_inline_no_branch`: the state array, a window of
six words of the schedule, and the constant. -/
structure Loop192 where
  state : WordArray
  k0 : Word
  k1 : Word
  k2 : Word
  k3 : Word
  k4 : Word
  k5 : Word
  rcon : Byte
  deriving DecidableEq

/-- The variables at the jump into the loop. The window is the key, and its first four words
have been added to the state. -/
def start192 (state : WordArray) (key : Vector Word 6) : Loop192 where
  state := xorWords state (four (key.get 0) (key.get 1) (key.get 2) (key.get 3))
  k0 := key.get 0
  k1 := key.get 1
  k2 := key.get 2
  k3 := key.get 3
  k4 := key.get 4
  k5 := key.get 5
  rcon := 0x01#8

/-- The head of the loop, which the jump leaves out: in the first iteration the last two
words are still those of the key. -/
def head192 (s : Loop192) : Loop192 :=
  let k4 := s.k4 ^^^ s.k3
  let k5 := s.k5 ^^^ k4
  { s with k4, k5 }

/-- From label `a` to the end of the second of three rounds. The first of them uses the last
two words of one group and the first two of the next, the second the other four. -/
def opening192 (s : Loop192) : Loop192 :=
  let temp := subByte (rotDown8 s.k5) ^^^ s.rcon.setWidth 32
  let k0 := s.k0 ^^^ temp
  let k1 := s.k1 ^^^ k0
  let state := tableRound (four s.k4 s.k5 k0 k1) s.state
  let k2 := s.k2 ^^^ k1
  let k3 := s.k3 ^^^ k2
  let k4 := s.k4 ^^^ k3
  let k5 := s.k5 ^^^ k4
  { state := tableRound (four k2 k3 k4 k5) state, k0, k1, k2, k3, k4, k5, rcon := nextRcon s.rcon }

/-- The words for the third round. After the loop the next constant is not computed any
more, but nothing reads it there. -/
def closing192 (s : Loop192) : Loop192 :=
  let temp := subByte (rotDown8 s.k5) ^^^ s.rcon.setWidth 32
  let k0 := s.k0 ^^^ temp
  let k1 := s.k1 ^^^ k0
  let k2 := s.k2 ^^^ k1
  let k3 := s.k3 ^^^ k2
  { s with k0, k1, k2, k3, rcon := nextRcon s.rcon }

/-- The body of the loop from label `a`: two rounds, the words of the third, and the third
round. -/
def body192 (s : Loop192) : Loop192 :=
  let s := closing192 (opening192 s)
  { s with state := tableRound (four s.k0 s.k1 s.k2 s.k3) s.state }

/-- The variables at the end of iteration `i + 1`. The first iteration enters at the label,
all others at the head. -/
def loop192 (state : WordArray) (key : Vector Word 6) : Nat → Loop192
  | 0 => body192 (start192 state key)
  | i + 1 => body192 (head192 (loop192 state key i))

/-- Function `encrypt_192_key_expand_inline_no_branch`: the state array it leaves. Three
iterations make nine rounds; the source repeats the body behind the loop with the last round
in place of the third. -/
def encrypt192KeyExpandInlineNoBranch (state : WordArray) (key : Vector Word 6) : WordArray :=
  let s := closing192 (opening192 (head192 (loop192 state key 2)))
  lastRound (four s.k0 s.k1 s.k2 s.k3) s.state

/-- The variables of `encrypt_256_key_expand_inline_no_branch`: the state array, a window of
eight words of the schedule, and the constant. -/
structure Loop256 where
  state : WordArray
  k0 : Word
  k1 : Word
  k2 : Word
  k3 : Word
  k4 : Word
  k5 : Word
  k6 : Word
  k7 : Word
  rcon : Byte
  deriving DecidableEq

/-- The variables at the jump into the loop. The window is the key, and its first half has
been added to the state. -/
def start256 (state : WordArray) (key : Vector Word 8) : Loop256 where
  state := xorWords state (four (key.get 0) (key.get 1) (key.get 2) (key.get 3))
  k0 := key.get 0
  k1 := key.get 1
  k2 := key.get 2
  k3 := key.get 3
  k4 := key.get 4
  k5 := key.get 5
  k6 := key.get 6
  k7 := key.get 7
  rcon := 0x01#8

/-- The head of the loop, which the jump leaves out. Here `temp` is substituted but not
rotated, as in the middle of a group of a long key. -/
def head256 (s : Loop256) : Loop256 :=
  let temp := subByte s.k3
  let k4 := s.k4 ^^^ temp
  let k5 := s.k5 ^^^ k4
  let k6 := s.k6 ^^^ k5
  let k7 := s.k7 ^^^ k6
  { s with k4, k5, k6, k7 }

/-- From label `a` to the words for the second of two rounds. After the loop the next
constant is not computed any more, but nothing reads it there. -/
def opening256 (s : Loop256) : Loop256 :=
  let state := tableRound (four s.k4 s.k5 s.k6 s.k7) s.state
  let temp := subByte (rotDown8 s.k7) ^^^ s.rcon.setWidth 32
  let k0 := s.k0 ^^^ temp
  let k1 := s.k1 ^^^ k0
  let k2 := s.k2 ^^^ k1
  let k3 := s.k3 ^^^ k2
  { s with state, k0, k1, k2, k3, rcon := nextRcon s.rcon }

/-- The body of the loop from label `a`: a round with the second half of the window, and a
round with the new first half. -/
def body256 (s : Loop256) : Loop256 :=
  let s := opening256 s
  { s with state := tableRound (four s.k0 s.k1 s.k2 s.k3) s.state }

/-- The variables at the end of iteration `i + 1`. The first iteration enters at the label,
all others at the head. -/
def loop256 (state : WordArray) (key : Vector Word 8) : Nat → Loop256
  | 0 => body256 (start256 state key)
  | i + 1 => body256 (head256 (loop256 state key i))

/-- Function `encrypt_256_key_expand_inline_no_branch`: the state array it leaves. Six
iterations make twelve rounds; behind the loop the body stands once more with the last round
in place of its second. -/
def encrypt256KeyExpandInlineNoBranch (state : WordArray) (key : Vector Word 8) : WordArray :=
  let s := opening256 (head256 (loop256 state key 5))
  lastRound (four s.k0 s.k1 s.k2 s.k3) s.state

/-- A local variable holds word `i` of the schedule. In memory its bytes are the other way
round. -/
def Holds (key : List Word) (i : Nat) (word : Word) : Prop := swap word = keySchedule key i

/-- The words of the key array start the schedule, where it is the key itself. -/
theorem holds_key {n : Nat} (key : Vector Word n) (i : Fin n) :
    Holds (keyWords key) i.val (key.get i) := by
  have inside : i.val < (keyWords key).length := by simp [keyWords]
  rw [Holds, key_schedule_first _ inside]
  simp [keyWords, Vector.get]

section Window

variable {key : List Word} {n i j before : Nat} {word last : Word} {rcon : Byte}

/-- Word `j` inside a group: one addition of the word before it. For a long key the middle
of a group is excluded, since its word is substituted first. -/
theorem Holds.plain (length : key.length = n) (holds : Holds key i word)
    (neighbour : Holds key before last) (group : j = i + n) (adjacent : j = before + 1)
    (inside : i % n ≠ 0) (plain : ¬(6 < n ∧ i % n = 4)) (nonempty : 0 < n) :
    Holds key j (word ^^^ last) := by
  subst length group
  have previous : i + key.length - 1 = before := by omega
  rw [Holds, swap_xor, key_schedule_plain key inside plain nonempty, previous, holds, neighbour]

/-- Word `j` at the start of a group: `temp` is rotated, substituted and given the constant,
which must be the power of `x` that belongs to this group. -/
theorem Holds.rotated (length : key.length = n) (holds : Holds key i word)
    (neighbour : Holds key before last) (group : j = i + n) (adjacent : j = before + 1)
    (start : i % n = 0) (nonempty : 0 < n) (constant : rcon = ByteField.xPower (i / n)) :
    Holds key j (word ^^^ (subByte (rotDown8 last) ^^^ rcon.setWidth 32)) := by
  subst length group
  have previous : i + key.length - 1 = before := by omega
  rw [Holds, swap_xor, swap_xor, swap_sub_byte, swap_rcon, constant,
    key_schedule_rotated key start nonempty, previous, holds, neighbour]
  rfl

/-- Without a rotation `temp` substitutes as the schedule does: byte by byte, so the order
of the bytes does not matter. -/
theorem swap_sub_byte_unrotated (w : Word) : swap (subByte w) = subWord (swap w) := by
  have substituted (r : Fin 4) : byteAt (subByte w) r = sBox (byteAt w r) := by
    have entry := byte_at_little_endian (fun i => table0 ((byteAt w i).toNat * 4)) r
    rw [subByte, entry, table_0_first]
  rw [swap]
  simp only [substituted, subWord, word_byte_swap]

/-- Word `j` in the middle of a group of a long key: `temp` is substituted, without a
rotation and without a constant. Only a group of eight words has this case. -/
theorem Holds.substituted (length : key.length = n) (holds : Holds key i word)
    (neighbour : Holds key before last) (group : j = i + n) (adjacent : j = before + 1)
    (fifth : i % n = 4) (long : 6 < n) : Holds key j (word ^^^ subByte last) := by
  subst length group
  have previous : i + key.length - 1 = before := by omega
  rw [Holds, swap_xor, swap_sub_byte_unrotated, key_schedule_substituted key fifth long, previous,
    holds, neighbour]

/-- Four neighbouring words are the round key at their position, if the first stands at a
multiple of four. -/
theorem key_view_holds {w0 w1 w2 w3 : Word} {i0 i1 i2 i3 j : Nat} (first : Holds key i0 w0)
    (second : Holds key i1 w1) (third : Holds key i2 w2) (fourth : Holds key i3 w3)
    (positions : i0 = 4 * j ∧ i1 = 4 * j + 1 ∧ i2 = 4 * j + 2 ∧ i3 = 4 * j + 3) :
    keyView (four w0 w1 w2 w3) = roundKeyOf key j := by
  obtain ⟨rfl, rfl, rfl, rfl⟩ := positions
  exact key_view_words w0 w1 w2 w3 first second third fourth

end Window

/-- The state array has been through `j` rounds of the cipher for `key` on `text`, the
initial addition of a round key included. -/
def Rounds (key : List Word) (text : State) (j : Nat) (state : WordArray) : Prop :=
  view state = layers.forward (roundKeyOf key) (layers.add (roundKeyOf key 0) text) j

/-- The sum with the first round key is where the rounds start. -/
theorem Rounds.start {key : List Word} {k : WordArray} (words : keyView k = roundKeyOf key 0)
    (state : WordArray) : Rounds key (view state) 0 (xorWords state k) := by
  rw [Rounds, view_xor_words, words]
  rfl

/-- A table round with the next round key is the next round, whatever the length of the key:
the rounds do not depend on where the words came from. -/
theorem Rounds.table {key : List Word} {text : State} {j : Nat} {state k : WordArray}
    (rounds : Rounds key text j state) (words : keyView k = roundKeyOf key (j + 1)) :
    Rounds key text (j + 1) (tableRound k state) := by
  rw [Rounds, view_table_round, words, rounds]
  rfl

/-- The last round with the last round key completes the cipher. The number of rounds is six
more than the words of the key. -/
theorem Rounds.last {key : List Word} {text state k : WordArray}
    (rounds : Rounds key (view text) (key.length + 5) state)
    (words : keyView k = roundKeyOf key (key.length + 6)) :
    ofState (view (lastRound k state)) = cipherOf key (ofState (view text)) := by
  rw [← to_state_of_state (view text)] at rounds
  rw [view_last_round, words, rounds]
  rfl

/-- What the variables of the 192-bit cipher hold: the number of rounds, the position of
each pair of words in the schedule, and the number of constants used. The pairs move one at
a time, so each has a position of its own. -/
structure Reached192 (key : List Word) (text : State) (j p0 p2 p4 constants : Nat)
    (s : Loop192) : Prop where
  state : Rounds key text j s.state
  k0 : Holds key p0 s.k0
  k1 : Holds key (p0 + 1) s.k1
  k2 : Holds key p2 s.k2
  k3 : Holds key (p2 + 1) s.k3
  k4 : Holds key p4 s.k4
  k5 : Holds key (p4 + 1) s.k5
  rcon : s.rcon = ByteField.xPower constants

/-- The head moves the last pair by one group: both words lie inside it, so two plain
additions do. -/
theorem head_192_reached {key : List Word} {text : State} {j q : Nat} {s : Loop192}
    (length : key.length = 6)
    (reached : Reached192 key text j (12 * q + 12) (12 * q + 14) (12 * q + 10) (2 * q + 2) s) :
    Reached192 key text j (12 * q + 12) (12 * q + 14) (12 * q + 16) (2 * q + 2) (head192 s) := by
  have k4 : Holds key (12 * q + 16) (head192 s).k4 :=
    reached.k4.plain length reached.k3 (by omega) (by omega) (by omega) (by omega) (by omega)
  have k5 : Holds key (12 * q + 17) (head192 s).k5 :=
    reached.k5.plain length k4 (by omega) (by omega) (by omega) (by omega) (by omega)
  exact { reached with k4, k5 }

/-- Two rounds move every pair by one group. The first words open the group with a constant,
and the window then holds the next six words in a row. Two round keys are read on the way,
one across the border of the groups. -/
theorem opening_192_reached {key : List Word} {text : State} {q : Nat} {s : Loop192}
    (length : key.length = 6)
    (reached : Reached192 key text (3 * q) (12 * q) (12 * q + 2) (12 * q + 4) (2 * q) s) :
    Reached192 key text (3 * q + 2) (12 * q + 6) (12 * q + 8) (12 * q + 10) (2 * q + 1)
      (opening192 s) := by
  have k0 : Holds key (12 * q + 6) (opening192 s).k0 :=
    reached.k0.rotated length reached.k5 (by omega) (by omega) (by omega) (by omega)
      (reached.rcon.trans (congrArg ByteField.xPower (by omega)))
  have k1 : Holds key (12 * q + 7) (opening192 s).k1 :=
    reached.k1.plain length k0 (by omega) (by omega) (by omega) (by omega) (by omega)
  have k2 : Holds key (12 * q + 8) (opening192 s).k2 :=
    reached.k2.plain length k1 (by omega) (by omega) (by omega) (by omega) (by omega)
  have k3 : Holds key (12 * q + 9) (opening192 s).k3 :=
    reached.k3.plain length k2 (by omega) (by omega) (by omega) (by omega) (by omega)
  have k4 : Holds key (12 * q + 10) (opening192 s).k4 :=
    reached.k4.plain length k3 (by omega) (by omega) (by omega) (by omega) (by omega)
  have k5 : Holds key (12 * q + 11) (opening192 s).k5 :=
    reached.k5.plain length k4 (by omega) (by omega) (by omega) (by omega) (by omega)
  have first := reached.state.table (key_view_holds reached.k4 reached.k5 k0 k1 (by omega))
  have second := first.table (key_view_holds k2 k3 k4 k5 (by omega))
  exact {
    state := second
    k0, k1, k2, k3, k4, k5
    rcon := by
      rw [opening192, next_rcon_eq, reached.rcon]
      rfl }

/-- The words for the third round move the first two pairs by one more group. The last pair
stays, and the head of the next iteration moves it. -/
theorem closing_192_reached {key : List Word} {text : State} {q : Nat} {s : Loop192}
    (length : key.length = 6)
    (reached : Reached192 key text (3 * q + 2) (12 * q + 6) (12 * q + 8) (12 * q + 10) (2 * q + 1)
      s) :
    Reached192 key text (3 * q + 2) (12 * q + 12) (12 * q + 14) (12 * q + 10) (2 * q + 2)
      (closing192 s) := by
  have k0 : Holds key (12 * q + 12) (closing192 s).k0 :=
    reached.k0.rotated length reached.k5 (by omega) (by omega) (by omega) (by omega)
      (reached.rcon.trans (congrArg ByteField.xPower (by omega)))
  have k1 : Holds key (12 * q + 13) (closing192 s).k1 :=
    reached.k1.plain length k0 (by omega) (by omega) (by omega) (by omega) (by omega)
  have k2 : Holds key (12 * q + 14) (closing192 s).k2 :=
    reached.k2.plain length k1 (by omega) (by omega) (by omega) (by omega) (by omega)
  have k3 : Holds key (12 * q + 15) (closing192 s).k3 :=
    reached.k3.plain length k2 (by omega) (by omega) (by omega) (by omega) (by omega)
  exact {
    state := reached.state
    k0, k1, k2, k3
    k4 := reached.k4
    k5 := reached.k5
    rcon := by
      rw [closing192, next_rcon_eq, reached.rcon]
      rfl }

/-- The first four words after `opening192` and `closing192` are the round key of the third
round: they start a group whose number is even. -/
theorem third_key_192 {key : List Word} {text : State} {q : Nat} {s : Loop192}
    (reached : Reached192 key text (3 * q + 2) (12 * q + 12) (12 * q + 14) (12 * q + 10) (2 * q + 2)
      s) : keyView (four s.k0 s.k1 s.k2 s.k3) = roundKeyOf key (3 * q + 3) :=
  key_view_holds reached.k0 reached.k1 reached.k2 reached.k3 (by omega)

/-- An iteration is three rounds: the two of the opening, and a table round with the key of
the third. -/
theorem body_192_reached {key : List Word} {text : State} {q : Nat} {s : Loop192}
    (length : key.length = 6)
    (reached : Reached192 key text (3 * q) (12 * q) (12 * q + 2) (12 * q + 4) (2 * q) s) :
    Reached192 key text (3 * q + 3) (12 * q + 12) (12 * q + 14) (12 * q + 10) (2 * q + 2)
      (body192 s) := by
  have closed := closing_192_reached length (opening_192_reached length reached)
  exact { closed with state := closed.state.table (third_key_192 closed) }

/-- The jump finds the words of the key in the variables, and no round and no constant
used. -/
theorem start_192_reached (state : WordArray) (key : Vector Word 6) :
    Reached192 (keyWords key) (view state) 0 0 2 4 0 (start192 state key) where
  state := Rounds.start (key_view_holds (holds_key key 0) (holds_key key 1) (holds_key key 2)
    (holds_key key 3) ⟨rfl, rfl, rfl, rfl⟩) state
  k0 := holds_key key 0
  k1 := holds_key key 1
  k2 := holds_key key 2
  k3 := holds_key key 3
  k4 := holds_key key 4
  k5 := holds_key key 5
  rcon := rfl

/-- The loop runs three rounds an iteration, by induction on the iterations; the first one
needs no head. -/
theorem loop_192_reached (state : WordArray) (key : Vector Word 6) (q : Nat) :
    Reached192 (keyWords key) (view state) (3 * q + 3) (12 * q + 12) (12 * q + 14) (12 * q + 10)
      (2 * q + 2) (loop192 state key q) := by
  have length : (keyWords key).length = 6 := by simp [keyWords]
  induction q with
  | zero => exact body_192_reached (q := 0) length (start_192_reached state key)
  | succ q inductionHypothesis =>
    exact body_192_reached (q := q + 1) length (head_192_reached length inductionHypothesis)

/-- `encrypt_192_key_expand_inline_no_branch` computes Cipher with a key of six words. Nine
rounds are done in the loop and three behind it, twelve in all. -/
theorem encrypt_192_exact (state : WordArray) (key : Vector Word 6) :
    ofState (view (encrypt192KeyExpandInlineNoBranch state key)) =
      cipherOf (keyWords key) (ofState (view state)) := by
  have length : (keyWords key).length = 6 := by simp [keyWords]
  have opened := opening_192_reached (q := 3) length
    (head_192_reached length (loop_192_reached state key 2))
  have closed := closing_192_reached length opened
  apply Rounds.last
  · rw [length]
    exact closed.state
  · rw [length]
    exact third_key_192 closed

/-- What the variables of the 256-bit cipher hold: the number of rounds, the position of
each half of the words in the schedule, and the number of constants used. The halves move in
turn, one a round. -/
structure Reached256 (key : List Word) (text : State) (j p0 p4 constants : Nat)
    (s : Loop256) : Prop where
  state : Rounds key text j s.state
  k0 : Holds key p0 s.k0
  k1 : Holds key (p0 + 1) s.k1
  k2 : Holds key (p0 + 2) s.k2
  k3 : Holds key (p0 + 3) s.k3
  k4 : Holds key p4 s.k4
  k5 : Holds key (p4 + 1) s.k5
  k6 : Holds key (p4 + 2) s.k6
  k7 : Holds key (p4 + 3) s.k7
  rcon : s.rcon = ByteField.xPower constants

/-- The head moves the second half by one group. Its first word is substituted, the other
three are plain additions. -/
theorem head_256_reached {key : List Word} {text : State} {j q : Nat} {s : Loop256}
    (length : key.length = 8)
    (reached : Reached256 key text j (8 * q + 8) (8 * q + 4) (q + 1) s) :
    Reached256 key text j (8 * q + 8) (8 * q + 12) (q + 1) (head256 s) := by
  have k4 : Holds key (8 * q + 12) (head256 s).k4 :=
    reached.k4.substituted length reached.k3 (by omega) (by omega) (by omega) (by omega)
  have k5 : Holds key (8 * q + 13) (head256 s).k5 :=
    reached.k5.plain length k4 (by omega) (by omega) (by omega) (by omega) (by omega)
  have k6 : Holds key (8 * q + 14) (head256 s).k6 :=
    reached.k6.plain length k5 (by omega) (by omega) (by omega) (by omega) (by omega)
  have k7 : Holds key (8 * q + 15) (head256 s).k7 :=
    reached.k7.plain length k6 (by omega) (by omega) (by omega) (by omega) (by omega)
  exact { reached with k4, k5, k6, k7 }

/-- A round with the second half, and the first half moves by one group, opened by a rotated
word with the next constant. -/
theorem opening_256_reached {key : List Word} {text : State} {q : Nat} {s : Loop256}
    (length : key.length = 8)
    (reached : Reached256 key text (2 * q) (8 * q) (8 * q + 4) q s) :
    Reached256 key text (2 * q + 1) (8 * q + 8) (8 * q + 4) (q + 1) (opening256 s) := by
  have k0 : Holds key (8 * q + 8) (opening256 s).k0 :=
    reached.k0.rotated length reached.k7 (by omega) (by omega) (by omega) (by omega)
      (reached.rcon.trans (congrArg ByteField.xPower (by omega)))
  have k1 : Holds key (8 * q + 9) (opening256 s).k1 :=
    reached.k1.plain length k0 (by omega) (by omega) (by omega) (by omega) (by omega)
  have k2 : Holds key (8 * q + 10) (opening256 s).k2 :=
    reached.k2.plain length k1 (by omega) (by omega) (by omega) (by omega) (by omega)
  have k3 : Holds key (8 * q + 11) (opening256 s).k3 :=
    reached.k3.plain length k2 (by omega) (by omega) (by omega) (by omega) (by omega)
  have words : keyView (four s.k4 s.k5 s.k6 s.k7) = roundKeyOf key (2 * q + 1) :=
    key_view_holds reached.k4 reached.k5 reached.k6 reached.k7 (by omega)
  exact { reached with
    state := reached.state.table words
    k0, k1, k2, k3
    rcon := by
      rw [opening256, next_rcon_eq, reached.rcon]
      rfl }

/-- The first half after `opening256` is the round key of the second round. -/
theorem second_key_256 {key : List Word} {text : State} {q : Nat} {s : Loop256}
    (reached : Reached256 key text (2 * q + 1) (8 * q + 8) (8 * q + 4) (q + 1) s) :
    keyView (four s.k0 s.k1 s.k2 s.k3) = roundKeyOf key (2 * q + 2) :=
  key_view_holds reached.k0 reached.k1 reached.k2 reached.k3 (by omega)

/-- An iteration is two rounds, one with each half of the window. -/
theorem body_256_reached {key : List Word} {text : State} {q : Nat} {s : Loop256}
    (length : key.length = 8)
    (reached : Reached256 key text (2 * q) (8 * q) (8 * q + 4) q s) :
    Reached256 key text (2 * q + 2) (8 * q + 8) (8 * q + 4) (q + 1) (body256 s) := by
  have opened := opening_256_reached length reached
  exact { opened with state := opened.state.table (second_key_256 opened) }

/-- The jump finds the words of the key in the variables, and no round and no constant
used. -/
theorem start_256_reached (state : WordArray) (key : Vector Word 8) :
    Reached256 (keyWords key) (view state) 0 0 4 0 (start256 state key) where
  state := Rounds.start (key_view_holds (holds_key key 0) (holds_key key 1) (holds_key key 2)
    (holds_key key 3) ⟨rfl, rfl, rfl, rfl⟩) state
  k0 := holds_key key 0
  k1 := holds_key key 1
  k2 := holds_key key 2
  k3 := holds_key key 3
  k4 := holds_key key 4
  k5 := holds_key key 5
  k6 := holds_key key 6
  k7 := holds_key key 7
  rcon := rfl

/-- The loop runs two rounds an iteration, by induction on the iterations; the first one
needs no head. -/
theorem loop_256_reached (state : WordArray) (key : Vector Word 8) (q : Nat) :
    Reached256 (keyWords key) (view state) (2 * q + 2) (8 * q + 8) (8 * q + 4) (q + 1)
      (loop256 state key q) := by
  have length : (keyWords key).length = 8 := by simp [keyWords]
  induction q with
  | zero => exact body_256_reached (q := 0) length (start_256_reached state key)
  | succ q inductionHypothesis =>
    exact body_256_reached (q := q + 1) length (head_256_reached length inductionHypothesis)

/-- `encrypt_256_key_expand_inline_no_branch` computes Cipher with a key of eight words.
Twelve rounds are done in the loop and two behind it, fourteen in all. -/
theorem encrypt_256_exact (state : WordArray) (key : Vector Word 8) :
    ofState (view (encrypt256KeyExpandInlineNoBranch state key)) =
      cipherOf (keyWords key) (ofState (view state)) := by
  have length : (keyWords key).length = 8 := by simp [keyWords]
  have opened := opening_256_reached (q := 6) length
    (head_256_reached length (loop_256_reached state key 5))
  apply Rounds.last
  · rw [length]
    exact opened.state
  · rw [length]
    exact second_key_256 opened

end AesCore.GoldenCipher
