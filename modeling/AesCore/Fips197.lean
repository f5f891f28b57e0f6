import AesCore.ByteField
import AesCore.KeyAlternating

/-!
# FIPS-197 AES-128

The standard's cipher, inverse cipher and key expansion, written from its own
vocabulary: a state of four rows and four columns of bytes, the four
transformations and their inverses, and the word recurrence of the schedule. A
128-bit block carries byte 0 in bits 127:120; byte `r + 4c` of a block is row `r`
of column `c`, and word `c` of a block is its column `c`.

Ten rounds are an instance of a key-alternating cipher with nine full rounds, so
inversion follows from the inversion of the layers. This module says what the
hardware is for; it contains nothing translated from the register-transfer code.
-/

namespace AesCore.Fips197

open ByteField (Byte sBox invSBox mixColumn invMixColumn xPower)

/-- Four bytes, the first in bits 31:24. The standard writes its words in this order. -/
abbrev Word := BitVec 32

/-- Sixteen bytes, the first in bits 127:120, as on the pins of the hardware. -/
abbrev Block := BitVec 128

/-- Row, then column. As a function of two indices, a state has no order of its own. -/
abbrev State := Fin 4 → Fin 4 → Byte

/-- Byte `r` of a word, counted from the left. Byte zero is the first one that the standard
writes. -/
def wordByte (word : Word) (r : Fin 4) : Byte := word.extractLsb' (24 - 8 * r.val) 8

/-- Four bytes form a word, the first one in the highest bits. -/
def ofBytes (b0 b1 b2 b3 : Byte) : Word := b0 ++ b1 ++ b2 ++ b3

/-- Word `c` of a block, counted from the left. These are the columns of the state. -/
def blockWord (block : Block) (c : Fin 4) : Word := block.extractLsb' (96 - 32 * c.val) 32

/-- Four words form a block, the first one in the highest bits. -/
def ofWords (w0 w1 w2 w3 : Word) : Block := w0 ++ w1 ++ w2 ++ w3

/-- The input of a cipher becomes a state column by column, so byte `i` goes to row
`i % 4`. -/
def toState (block : Block) : State := fun r c => wordByte (blockWord block c) r

/-- Column `c` of a state as a word, with row zero first. -/
def column (state : State) (c : Fin 4) : Word :=
  ofBytes (state 0 c) (state 1 c) (state 2 c) (state 3 c)

/-- The final state becomes the output column by column, in the order of the input. -/
def ofState (state : State) : Block :=
  ofWords (column state 0) (column state 1) (column state 2) (column state 3)

/-- Add a round key, one word for each column, byte `r` of the word to row `r`. -/
def addRoundKey (key : Fin 4 → Word) (state : State) : State :=
  fun r c => state r c ^^^ wordByte (key c) r

/-- The S-box on every byte, in its place. -/
def subBytes (state : State) : State := fun r c => sBox (state r c)

/-- The inverse S-box on every byte, in its place. -/
def invSubBytes (state : State) : State := fun r c => invSBox (state r c)

/-- Row `r` moves left by `r` columns, and what leaves on the left comes back on the
right. -/
def shiftRows (state : State) : State := fun r c => state r (c + r)

/-- Row `r` moves right by `r` columns, back to where `shiftRows` has taken it from. -/
def invShiftRows (state : State) : State := fun r c => state r (c - r)

/-- Multiply every column by the matrix of `MixColumns`. No column looks at another. -/
def mixColumns (state : State) : State := fun r c => mixColumn (fun i => state i c) r

/-- Multiply every column by the inverse matrix, which exists over the field of bytes. -/
def invMixColumns (state : State) : State := fun r c => invMixColumn (fun i => state i c) r

/-- The S-box on every byte of a word. The key schedule uses it where a word starts a
group. -/
def subWord (word : Word) : Word :=
  ofBytes (sBox (wordByte word 0)) (sBox (wordByte word 1)) (sBox (wordByte word 2))
    (sBox (wordByte word 3))

/-- Rotate a word left by one byte, so that its first byte becomes the last. -/
def rotWord (word : Word) : Word :=
  ofBytes (wordByte word 1) (wordByte word 2) (wordByte word 3) (wordByte word 0)

/-- The round constant of round `j`, counted from one: `x^(j-1)` in the first byte. -/
def rcon (j : Nat) : Word := ofBytes (xPower (j - 1)) 0#8 0#8 0#8

/-- The key schedule, word by word, without an end. The cipher uses the first forty-four
words, and the constants go on beyond them. -/
def keyExpansion (key : Block) : Nat → Word
  | 0 => blockWord key 0
  | 1 => blockWord key 1
  | 2 => blockWord key 2
  | 3 => blockWord key 3
  | i + 4 =>
    keyExpansion key i ^^^
      (if (i + 4) % 4 = 0 then
        subWord (rotWord (keyExpansion key (i + 3))) ^^^ rcon ((i + 4) / 4)
      else keyExpansion key (i + 3))

/-- The four words that round `j` adds, which are neighbours in the schedule. -/
def roundKey (key : Block) (j : Nat) : Fin 4 → Word := fun c => keyExpansion key (4 * j + c.val)

/-- The quarters of four equally wide vectors are those vectors. Words and blocks are put
together and taken apart by this. -/
theorem extract_quarters {w : Nat} (a b c d : BitVec w) :
    (a ++ b ++ c ++ d).extractLsb' (w + w + w) w = a ∧
      (a ++ b ++ c ++ d).extractLsb' (w + w) w = b ∧
      (a ++ b ++ c ++ d).extractLsb' w w = c ∧ (a ++ b ++ c ++ d).extractLsb' 0 w = d := by
  refine ⟨?_, ?_, ?_, ?_⟩
  · rw [BitVec.extractLsb'_append_eq_of_le (by omega),
      BitVec.extractLsb'_append_eq_of_le (by omega), BitVec.extractLsb'_append_eq_of_le (by omega)]
    simp
  · rw [BitVec.extractLsb'_append_eq_of_le (by omega),
      BitVec.extractLsb'_append_eq_of_le (by omega)]
    simp [BitVec.extractLsb'_append_eq_right]
  · rw [BitVec.extractLsb'_append_eq_of_le (by omega), Nat.sub_self,
      BitVec.extractLsb'_append_eq_right]
  · exact BitVec.extractLsb'_append_eq_right

/-- A vector is the concatenation of its quarters. With the lemma before, nothing is lost
either way. -/
theorem append_quarters {w : Nat} (a : BitVec (w + w + w + w)) :
    a.extractLsb' (w + w + w) w ++ a.extractLsb' (w + w) w ++ a.extractLsb' w w ++
      a.extractLsb' 0 w = a := by
  rw [BitVec.extractLsb'_append_extractLsb'_eq_extractLsb' rfl,
    BitVec.extractLsb'_append_extractLsb'_eq_extractLsb' rfl,
    BitVec.extractLsb'_append_extractLsb'_eq_extractLsb' (Nat.zero_add w).symm,
    BitVec.extractLsb'_eq_self]

/-- The bytes of a word are those it was formed from, in the same order. -/
theorem word_byte_of_bytes (bytes : Fin 4 → Byte) (r : Fin 4) :
    wordByte (ofBytes (bytes 0) (bytes 1) (bytes 2) (bytes 3)) r = bytes r := by
  obtain ⟨first, second, third, fourth⟩ :=
    extract_quarters (bytes 0) (bytes 1) (bytes 2) (bytes 3)
  match r with
  | 0 => exact first
  | 1 => exact second
  | 2 => exact third
  | 3 => exact fourth

/-- The words of a block are those it was formed from, in the same order. -/
theorem block_word_of_words (words : Fin 4 → Word) (c : Fin 4) :
    blockWord (ofWords (words 0) (words 1) (words 2) (words 3)) c = words c := by
  obtain ⟨first, second, third, fourth⟩ :=
    extract_quarters (words 0) (words 1) (words 2) (words 3)
  match c with
  | 0 => exact first
  | 1 => exact second
  | 2 => exact third
  | 3 => exact fourth

/-- A word is formed from its bytes, so it is known when they are. -/
theorem of_bytes_word_byte (word : Word) :
    ofBytes (wordByte word 0) (wordByte word 1) (wordByte word 2) (wordByte word 3) = word :=
  append_quarters (w := 8) word

/-- A block is formed from its words, so it is known when they are. -/
theorem of_words_block_word (block : Block) :
    ofWords (blockWord block 0) (blockWord block 1) (blockWord block 2) (blockWord block 3) =
      block :=
  append_quarters (w := 32) block

/-- Words that agree in every byte are equal. Equations about the key schedule are proved in
this way. -/
theorem word_ext {left right : Word} (same : ∀ r, wordByte left r = wordByte right r) :
    left = right := by
  rw [← of_bytes_word_byte left, ← of_bytes_word_byte right, same 0, same 1, same 2, same 3]

/-- The bytes of a rotated word are those one place further on, modulo four. -/
theorem word_byte_rot_word (word : Word) (r : Fin 4) :
    wordByte (rotWord word) r = wordByte word (r + 1) :=
  word_byte_of_bytes (fun i => wordByte word (i + 1)) r

/-- Byte `r` of a column is row `r` of the state, so columns and states carry the same
bytes. -/
theorem word_byte_column (state : State) (r c : Fin 4) :
    wordByte (column state c) r = state r c :=
  word_byte_of_bytes (fun i => state i c) r

/-- Word `c` of an output block is column `c` of the final state. -/
theorem block_word_of_state (state : State) (c : Fin 4) :
    blockWord (ofState state) c = column state c :=
  block_word_of_words (column state) c

/-- Reading an output block back gives the state it was formed from. So one cipher may take
what another puts out. -/
theorem to_state_of_state (state : State) : toState (ofState state) = state := by
  funext r c
  rw [toState, block_word_of_state, word_byte_column]

/-- A block is recovered from the state it becomes, so a state is as good as a block. -/
theorem of_state_to_state (block : Block) : ofState (toState block) = block := by
  have columns (c : Fin 4) : column (toState block) c = blockWord block c :=
    of_bytes_word_byte (blockWord block c)
  rw [ofState, columns, columns, columns, columns, of_words_block_word]

/-- Different states form different blocks. Where two texts differ, their final states
do. -/
theorem of_state_injective : Function.Injective ofState := by
  intro left right same
  rw [← to_state_of_state left, same, to_state_of_state]

/-- A round key is added by exclusive or, so adding it twice changes nothing. -/
theorem add_round_key_twice (key : Fin 4 → Word) (state : State) :
    addRoundKey key (addRoundKey key state) = state := by
  funext r c
  rw [addRoundKey, addRoundKey, BitVec.xor_assoc, BitVec.xor_self, BitVec.xor_zero]

/-- Different round keys never have the same effect on a state. So a wrong first round key
gives a wrong text. -/
theorem add_round_key_injective {key other : Fin 4 → Word} {state : State}
    (same : addRoundKey key state = addRoundKey other state) : key = other := by
  funext c
  apply word_ext
  intro r
  have bytes : state r c ^^^ wordByte (key c) r = state r c ^^^ wordByte (other c) r :=
    congrFun (congrFun same r) c
  exact BitVec.xor_right_inj _ |>.mp bytes

/-- Moving a row left and then right, or right and then left, leaves it in place. Indices
are taken modulo four. -/
theorem row_distance (c r : Fin 4) : c - r + r = c ∧ c + r - r = c := by
  revert c r
  decide

/-- The layers of AES. The substitution layer comprises `SubBytes` and `ShiftRows`;
its inverse undoes them in the order the inverse cipher prescribes. -/
def layers : KeyAlternating.Layers (Fin 4 → Word) State where
  add := addRoundKey
  sub state := shiftRows (subBytes state)
  unsub state := invSubBytes (invShiftRows state)
  mix := mixColumns
  unmix := invMixColumns
  add_add := add_round_key_twice
  unsub_sub state := by
    funext r c
    simp only [invSubBytes, invShiftRows, shiftRows, subBytes, row_distance,
      ByteField.inv_s_box_s_box]
  sub_unsub state := by
    funext r c
    simp only [invSubBytes, invShiftRows, shiftRows, subBytes, row_distance,
      ByteField.s_box_inv_s_box]
  unmix_mix state := by
    funext r c
    exact congrFun (ByteField.inv_mix_column_mix_column fun i => state i c) r
  mix_unmix state := by
    funext r c
    exact congrFun (ByteField.mix_column_inv_mix_column fun i => state i c) r

/-- Cipher: round key 0, nine full rounds, and a last round without `MixColumns`. -/
def cipher (key text : Block) : Block :=
  ofState (layers.encrypt 9 (roundKey key) (toState text))

/-- The round keys in the order in which the inverse cipher uses them, the last one
first. -/
def inverseKey (key : Block) : Nat → Fin 4 → Word := fun slot => roundKey key (10 - slot)

/-- InvCipher: the same round keys backwards, nine full inverse rounds, and a last one
without `InvMixColumns`. -/
def invCipher (key text : Block) : Block :=
  ofState (layers.decrypt 9 (inverseKey key) (toState text))

/-- InvCipher undoes Cipher for every key and block, by the laws of the layers. Nothing is
used of the key schedule. -/
theorem inv_cipher_cipher (key text : Block) : invCipher key (cipher key text) = text := by
  rw [invCipher, cipher, to_state_of_state]
  have undone := layers.decrypt_encrypt 9 (roundKey key) (toState text)
  rw [show inverseKey key = fun slot => roundKey key (9 + 1 - slot) from rfl, undone,
    of_state_to_state]

/-- Cipher undoes InvCipher for every key and block, so both are permutations of the
blocks. -/
theorem cipher_inv_cipher (key text : Block) : cipher key (invCipher key text) = text := by
  rw [invCipher, cipher, to_state_of_state]
  have undone := layers.encrypt_decrypt 9 (roundKey key) (toState text)
  rw [show inverseKey key = fun slot => roundKey key (9 + 1 - slot) from rfl, undone,
    of_state_to_state]

/-- A block has exactly one plaintext under a key, which InvCipher finds. Equations between
ciphertexts turn into equations between texts. -/
theorem cipher_eq_iff (key text result : Block) :
    cipher key text = result ↔ text = invCipher key result := by
  constructor
  · rintro rfl
    exact (inv_cipher_cipher key text).symm
  · rintro rfl
    exact cipher_inv_cipher key result

end AesCore.Fips197
