import Mathlib.Data.List.GetD
import AesCore.BlockBytes
import AesCore.CipherTop
import AesCore.KeyLengths

/-!
# The Python implementation

`aes.py` works on lists of integers: a state is a list of four rows, a key schedule
a list of words with four integers each. The functions change their lists in place,
but every list they change is their own, so a function is what it returns. Division
of integers rounds down, as in the version of the language the file is written for.

Entries of lists are looked up by position, and a position outside a list, where the
language raises an exception, gives zero here. On lists of bytes none is looked up:
the functions then compute the states and words of the standard, entry by entry.
-/

namespace AesCore.PythonAes

open ByteField (Byte sBox)
open Fips197

/-- The list `Sbox`, entry by entry as the program has it. -/
def sbox : List Nat :=
  [0x63, 0x7c, 0x77, 0x7b, 0xf2, 0x6b, 0x6f, 0xc5, 0x30, 0x01, 0x67, 0x2b, 0xfe, 0xd7, 0xab, 0x76,
   0xca, 0x82, 0xc9, 0x7d, 0xfa, 0x59, 0x47, 0xf0, 0xad, 0xd4, 0xa2, 0xaf, 0x9c, 0xa4, 0x72, 0xc0,
   0xb7, 0xfd, 0x93, 0x26, 0x36, 0x3f, 0xf7, 0xcc, 0x34, 0xa5, 0xe5, 0xf1, 0x71, 0xd8, 0x31, 0x15,
   0x04, 0xc7, 0x23, 0xc3, 0x18, 0x96, 0x05, 0x9a, 0x07, 0x12, 0x80, 0xe2, 0xeb, 0x27, 0xb2, 0x75,
   0x09, 0x83, 0x2c, 0x1a, 0x1b, 0x6e, 0x5a, 0xa0, 0x52, 0x3b, 0xd6, 0xb3, 0x29, 0xe3, 0x2f, 0x84,
   0x53, 0xd1, 0x00, 0xed, 0x20, 0xfc, 0xb1, 0x5b, 0x6a, 0xcb, 0xbe, 0x39, 0x4a, 0x4c, 0x58, 0xcf,
   0xd0, 0xef, 0xaa, 0xfb, 0x43, 0x4d, 0x33, 0x85, 0x45, 0xf9, 0x02, 0x7f, 0x50, 0x3c, 0x9f, 0xa8,
   0x51, 0xa3, 0x40, 0x8f, 0x92, 0x9d, 0x38, 0xf5, 0xbc, 0xb6, 0xda, 0x21, 0x10, 0xff, 0xf3, 0xd2,
   0xcd, 0x0c, 0x13, 0xec, 0x5f, 0x97, 0x44, 0x17, 0xc4, 0xa7, 0x7e, 0x3d, 0x64, 0x5d, 0x19, 0x73,
   0x60, 0x81, 0x4f, 0xdc, 0x22, 0x2a, 0x90, 0x88, 0x46, 0xee, 0xb8, 0x14, 0xde, 0x5e, 0x0b, 0xdb,
   0xe0, 0x32, 0x3a, 0x0a, 0x49, 0x06, 0x24, 0x5c, 0xc2, 0xd3, 0xac, 0x62, 0x91, 0x95, 0xe4, 0x79,
   0xe7, 0xc8, 0x37, 0x6d, 0x8d, 0xd5, 0x4e, 0xa9, 0x6c, 0x56, 0xf4, 0xea, 0x65, 0x7a, 0xae, 0x08,
   0xba, 0x78, 0x25, 0x2e, 0x1c, 0xa6, 0xb4, 0xc6, 0xe8, 0xdd, 0x74, 0x1f, 0x4b, 0xbd, 0x8b, 0x8a,
   0x70, 0x3e, 0xb5, 0x66, 0x48, 0x03, 0xf6, 0x0e, 0x61, 0x35, 0x57, 0xb9, 0x86, 0xc1, 0x1d, 0x9e,
   0xe1, 0xf8, 0x98, 0x11, 0x69, 0xd9, 0x8e, 0x94, 0x9b, 0x1e, 0x87, 0xe9, 0xce, 0x55, 0x28, 0xdf,
   0x8c, 0xa1, 0x89, 0x0d, 0xbf, 0xe6, 0x42, 0x68, 0x41, 0x99, 0x2d, 0x0f, 0xb0, 0x54, 0xbb, 0x16]

/-- The list `Rcon`, whose first entry is never used. -/
def rconTable : List (List Nat) :=
  [[0x00, 0x00, 0x00, 0x00], [0x01, 0x00, 0x00, 0x00], [0x02, 0x00, 0x00, 0x00],
   [0x04, 0x00, 0x00, 0x00], [0x08, 0x00, 0x00, 0x00], [0x10, 0x00, 0x00, 0x00],
   [0x20, 0x00, 0x00, 0x00], [0x40, 0x00, 0x00, 0x00], [0x80, 0x00, 0x00, 0x00],
   [0x1b, 0x00, 0x00, 0x00], [0x36, 0x00, 0x00, 0x00]]

/-- The entry `s[r][c]` of a list of lists. An index outside a list gives zero, where the
program would raise an exception; in a state of four rows of four no index is outside. -/
def entry (s : List (List Nat)) (r c : Nat) : Nat := (s.getD r []).getD c 0

/-- The state with the given entries, four rows of four. -/
def build (f : Nat → Nat → Nat) : List (List Nat) :=
  (List.range 4).map fun r => (List.range 4).map fun c => f r c

/-- Function `SubBytes`, which replaces every entry by its entry of the list `Sbox`. -/
def subBytes (s : List (List Nat)) : List (List Nat) := build fun r c => sbox.getD (entry s r c) 0

/-- Function `ShiftRows`. Row `r` is copied with its entries moved by `r` places and copied
back. -/
def shiftRows (s : List (List Nat)) : List (List Nat) := build fun r c => entry s r ((c + r) % 4)

/-- The doubled entry `b[i]` of `MixColumns`, reduced where it has nine bits. -/
def double (x : Nat) : Nat := if x &&& 0x80 ≠ 0 then (x <<< 1) ^^^ 0x011b else x <<< 1

/-- Function `MixColumns`. Each column is computed from its entries and their doubles. -/
def mixColumns (s : List (List Nat)) : List (List Nat) :=
  build fun r c =>
    let a i := entry s i c
    let b i := double (entry s i c)
    match r with
    | 0 => b 0 ^^^ a 1 ^^^ b 1 ^^^ a 2 ^^^ a 3
    | 1 => a 0 ^^^ b 1 ^^^ a 2 ^^^ b 2 ^^^ a 3
    | 2 => a 0 ^^^ a 1 ^^^ b 2 ^^^ a 3 ^^^ b 3
    | _ => a 0 ^^^ b 0 ^^^ a 1 ^^^ a 2 ^^^ b 3

/-- Function `AddRoundKey`. The words of a round are neighbours in the list of the
schedule. -/
def addRoundKey (state w : List (List Nat)) (rnd : Nat) : List (List Nat) :=
  build fun r c => entry state r c ^^^ entry w (rnd * 4 + c) r

/-- The state after the rounds up to `round`. Round zero is the addition before the loop. -/
def rounds (w state : List (List Nat)) : Nat → List (List Nat)
  | 0 => addRoundKey state w 0
  | round + 1 =>
    addRoundKey (mixColumns (shiftRows (subBytes (rounds w state round)))) w (round + 1)

/-- Function `Cipher`. The number of rounds follows from the length of the schedule. -/
def cipher (input : List Nat) (w : List (List Nat)) : List Nat :=
  let nr := w.length / 4 - 1
  let state := build fun r c => input.getD (r + 4 * c) 0
  let state := rounds w state (nr - 1)
  let state := addRoundKey (shiftRows (subBytes state)) w nr
  (List.range 16).map fun i => entry state (i % 4) (i / 4)

/-- Function `SubWord`, which replaces the four entries of a word by those of the list
`Sbox`. -/
def subWord (w : List Nat) : List Nat := (List.range 4).map fun i => sbox.getD (w.getD i 0) 0

/-- Function `RotWord`, which moves the first entry of a word to its end. -/
def rotWord (w : List Nat) : List Nat := [w.getD 1 0, w.getD 2 0, w.getD 3 0, w.getD 0 0]

/-- The loop that adds two words entry by entry, with exclusive or. -/
def xorWord (v w : List Nat) : List Nat := (List.range 4).map fun t => v.getD t 0 ^^^ w.getD t 0

/-- Word `i` from the words before it, past the key. The position in the group decides what
becomes of `temp`. -/
def nextWord (nk i : Nat) (w : List (List Nat)) : List Nat :=
  let temp := w.getD (i - 1) []
  let temp :=
    if i % nk = 0 then xorWord (subWord (rotWord temp)) (rconTable.getD (i / nk) [])
    else if nk > 6 ∧ i % nk = 4 then subWord temp
    else temp
  xorWord (w.getD (i - nk) []) temp

/-- The first `n` words of the schedule. The two loops of the program fill one list from its
beginning. -/
def firstWords (key : List Nat) : Nat → List (List Nat)
  | 0 => []
  | i + 1 =>
    let w := firstWords key i
    let nk := key.length / 4
    w ++ [if i < nk
      then [key.getD (4 * i) 0, key.getD (4 * i + 1) 0, key.getD (4 * i + 2) 0,
        key.getD (4 * i + 3) 0]
      else nextWord nk i w]

/-- Function `KeyExpansion`. The number of words follows from the length of the key. -/
def keyExpansion (key : List Nat) : List (List Nat) :=
  let nk := key.length / 4
  let nr := nk + 6
  firstWords key (4 * (nr + 1))

/-!
## States and words of bytes
-/

/-- A list of lists shows a state of the standard: its entries are the bytes as integers,
and so below 256. -/
def Shows (s : List (List Nat)) (state : State) : Prop :=
  ∀ r c : Fin 4, entry s r c = (state r c).toNat

/-- A list shows a word of the standard, entry by entry. -/
def ShowsWord (w : List Nat) (word : Word) : Prop :=
  ∀ t : Fin 4, w.getD t 0 = (wordByte word t).toNat

/-- The entries of a built state are those it was built from. -/
theorem entry_build (f : Nat → Nat → Nat) (r c : Fin 4) : entry (build f) r c = f r c := by
  simp [entry, build]

/-- The entries of a built word are those it was built from. -/
theorem get_built_word (f : Nat → Nat) (t : Fin 4) : ((List.range 4).map f).getD t 0 = f t := by
  simp

/-- The list holds the S-box. It is compared with the table of the hardware, which has been
checked against the standard. -/
theorem sbox_get (b : Byte) : sbox.getD b.toNat 0 = (sBox b).toNat := by
  have entries : ∀ b : Byte, sbox.getD b.toNat 0 = (Sbox.aesSbox b).toNat := by decide +kernel
  rw [entries, Sbox.aes_sbox_eq]

/-- Doubling is multiplication by `x`, on the integers of all bytes. -/
theorem double_eq : ∀ b : Byte, double b.toNat = (StateRegisters.xtime b).toNat := by
  decide +kernel

/-- `SubBytes` and `ShiftRows` are the substitution layer, one after the other. -/
theorem shows_sub {s : List (List Nat)} {state : State} (shown : Shows s state) :
    Shows (shiftRows (subBytes s)) (layers.sub state) := by
  intro r c
  have column : (c.val + r.val) % 4 = (c + r).val := rfl
  rw [shiftRows, entry_build, column, subBytes, entry_build, shown, sbox_get]
  rfl

/-- `AddRoundKey` adds the words from position `4 * rnd` on, which have to show a round
key. -/
theorem shows_add {s w : List (List Nat)} {state : State} {key : Fin 4 → Word} {rnd : Nat}
    (shown : Shows s state) (words : ∀ c : Fin 4, ShowsWord (w.getD (rnd * 4 + c) []) (key c)) :
    Shows (addRoundKey s w rnd) (layers.add key state) := by
  intro r c
  have word : entry w (rnd * 4 + c) r = (wordByte (key c) r).toNat := words c r
  rw [addRoundKey, entry_build, shown, word, ← BitVec.toNat_xor]
  rfl

/-- The rows of a mixed column, in the order of summation of `MixColumns`. The sums are
those of the standard with their terms rearranged. -/
theorem mixed_rows (f : Fin 4 → Byte) :
    ByteField.mixColumn f 0 =
        StateRegisters.xtime (f 0) ^^^ f 1 ^^^ StateRegisters.xtime (f 1) ^^^ f 2 ^^^ f 3 ∧
      ByteField.mixColumn f 1 =
        f 0 ^^^ StateRegisters.xtime (f 1) ^^^ f 2 ^^^ StateRegisters.xtime (f 2) ^^^ f 3 ∧
      ByteField.mixColumn f 2 =
        f 0 ^^^ f 1 ^^^ StateRegisters.xtime (f 2) ^^^ f 3 ^^^ StateRegisters.xtime (f 3) ∧
      ByteField.mixColumn f 3 =
        f 0 ^^^ StateRegisters.xtime (f 0) ^^^ f 1 ^^^ f 2 ^^^ StateRegisters.xtime (f 3) := by
  have two (b : Byte) := (CipherTop.mix_coefficients b).1
  have three (b : Byte) := (CipherTop.mix_coefficients b).2.1
  have one (b : Byte) := (CipherTop.mix_coefficients b).2.2
  simp only [ByteField.mixColumn, Circulant.circulant, ByteField.mixCoefficient, one, two, three,
    Fin.isValue, Fin.reduceAdd]
  refine ⟨?_, ?_, ?_, ?_⟩ <;> ac_rfl

/-- `MixColumns` is the mixing layer. Sums of entries stay below 256, so they show bytes
again. -/
theorem shows_mix {s : List (List Nat)} {state : State} (shown : Shows s state) :
    Shows (mixColumns s) (layers.mix state) := by
  intro r c
  have a0 : entry s 0 c = (state 0 c).toNat := shown 0 c
  have a1 : entry s 1 c = (state 1 c).toNat := shown 1 c
  have a2 : entry s 2 c = (state 2 c).toNat := shown 2 c
  have a3 : entry s 3 c = (state 3 c).toNat := shown 3 c
  obtain ⟨first, second, third, fourth⟩ := mixed_rows fun i => state i c
  rw [mixColumns, entry_build]
  change _ = (ByteField.mixColumn (fun i => state i c) r).toNat
  match r with
  | 0 =>
    rw [first]
    simp only [BitVec.toNat_xor, ← double_eq, ← a0, ← a1, ← a2, ← a3]
    rfl
  | 1 =>
    rw [second]
    simp only [BitVec.toNat_xor, ← double_eq, ← a0, ← a1, ← a2, ← a3]
    rfl
  | 2 =>
    rw [third]
    simp only [BitVec.toNat_xor, ← double_eq, ← a0, ← a1, ← a2, ← a3]
    rfl
  | 3 =>
    rw [fourth]
    simp only [BitVec.toNat_xor, ← double_eq, ← a0, ← a1, ← a2, ← a3]

/-- `SubWord` substitutes as the schedule does, byte by byte. -/
theorem shows_sub_word {w : List Nat} {word : Word} (shown : ShowsWord w word) :
    ShowsWord (subWord w) (Fips197.subWord word) := by
  intro t
  have byte := word_byte_of_bytes (fun i => sBox (wordByte word i)) t
  rw [subWord, get_built_word, shown, sbox_get, Fips197.subWord, byte]

/-- `RotWord` rotates as the schedule does, by one byte. -/
theorem shows_rot_word {w : List Nat} {word : Word} (shown : ShowsWord w word) :
    ShowsWord (rotWord w) (Fips197.rotWord word) := by
  intro t
  rw [word_byte_rot_word, ← shown]
  match t with
  | 0 | 1 | 2 | 3 => rfl

/-- Words add entry by entry, and the sums show the sum of the words. -/
theorem shows_xor_word {v w : List Nat} {left right : Word} (shown : ShowsWord v left)
    (other : ShowsWord w right) : ShowsWord (xorWord v w) (left ^^^ right) := by
  intro t
  have distributed : wordByte (left ^^^ right) t = wordByte left t ^^^ wordByte right t :=
    BitVec.extractLsb'_xor
  rw [xorWord, get_built_word, shown, other, distributed, BitVec.toNat_xor]

/-- The list of constants is that of the standard, one position higher, for the ten rounds
that need one. -/
theorem shows_rcon {j : Nat} (bounded : j < 10) :
    ShowsWord (rconTable.getD (j + 1) []) (rcon (j + 1)) := by
  have constants : ∀ j, j < 10 → ∀ t : Fin 4,
      (rconTable.getD (j + 1) []).getD t 0 = (wordByte (rcon (j + 1)) t).toNat := by
    decide +kernel
  exact constants j bounded

/-- The words of a key of bytes, four bytes each. Bytes that do not fill a word are left
out. -/
def keyWords (key : List Byte) : List Word :=
  (List.range (key.length / 4)).map fun i =>
    ofBytes (key.getD (4 * i) 0#8) (key.getD (4 * i + 1) 0#8) (key.getD (4 * i + 2) 0#8)
      (key.getD (4 * i + 3) 0#8)

/-- The key has a word for every four bytes, so keys of 16, 24 and 32 bytes have four, six
and eight. -/
theorem length_key_words (key : List Byte) : (keyWords key).length = key.length / 4 := by
  simp [keyWords]

/-- Bytes as integers are looked up like bytes, zero outside the list included. -/
theorem get_bytes (bytes : List Byte) (i : Nat) :
    (bytes.map BitVec.toNat).getD i 0 = (bytes.getD i 0#8).toNat :=
  List.getD_map bytes 0#8 BitVec.toNat

/-- The words of the key start the schedule, four entries of the key to a word. -/
theorem shows_key_word (key : List Byte) {i : Nat} (inside : i < key.length / 4) :
    ShowsWord [(key.map BitVec.toNat).getD (4 * i) 0, (key.map BitVec.toNat).getD (4 * i + 1) 0,
      (key.map BitVec.toNat).getD (4 * i + 2) 0, (key.map BitVec.toNat).getD (4 * i + 3) 0]
      (keySchedule (keyWords key) i) := by
  have within : i < (keyWords key).length := by rwa [length_key_words]
  have word : (keyWords key).getD i 0#32 = ofBytes (key.getD (4 * i) 0#8)
      (key.getD (4 * i + 1) 0#8) (key.getD (4 * i + 2) 0#8) (key.getD (4 * i + 3) 0#8) := by
    simp [keyWords, inside]
  intro t
  have byte := word_byte_of_bytes (fun t => key.getD (4 * i + t.val) 0#8) t
  rw [key_schedule_first _ within, word]
  refine Eq.trans ?_ (congrArg BitVec.toNat byte).symm
  simp only [get_bytes]
  match t with
  | 0 | 1 | 2 | 3 => rfl

/-- A later word follows from the words before it, in each of the three places that a word
can have in its group. -/
theorem shows_next_word {key : List Byte} (long : 16 ≤ key.length) {w : List (List Nat)} {i : Nat}
    (bounded : i + key.length / 4 < 4 * (key.length / 4 + 7))
    (earlier : ShowsWord (w.getD i []) (keySchedule (keyWords key) i))
    (last : ShowsWord (w.getD (i + key.length / 4 - 1) [])
      (keySchedule (keyWords key) (i + key.length / 4 - 1))) :
    ShowsWord (nextWord (key.length / 4) (i + key.length / 4) w)
      (keySchedule (keyWords key) (i + key.length / 4)) := by
  have length := length_key_words key
  have four : 4 ≤ key.length / 4 := by omega
  have recurrence := key_schedule_later (keyWords key) i (by omega)
  rw [length] at recurrence
  generalize key.length / 4 = nk at *
  have quotient : (i + nk) / nk = i / nk + 1 := Nat.add_div_right i (by omega)
  have constants : i / nk < 10 := (Nat.div_lt_iff_lt_mul (by omega)).mpr (by omega)
  rw [recurrence, nextWord, Nat.add_mod_right, quotient, Nat.add_sub_cancel]
  apply shows_xor_word earlier
  rw [scheduleTemp]
  by_cases start : i % nk = 0
  · rw [if_pos start, if_pos start]
    exact shows_xor_word (shows_sub_word (shows_rot_word last)) (shows_rcon constants)
  · by_cases fifth : 6 < nk ∧ i % nk = 4
    · rw [if_neg start, if_pos fifth, if_neg start, if_pos fifth]
      exact shows_sub_word last
    · rw [if_neg start, if_neg fifth, if_neg start, if_neg fifth]
      exact last

/-- What the first `n` words of the schedule are: as many words of the standard's schedule.
The induction is over their number. -/
theorem first_words_shown (key : List Byte) (long : 16 ≤ key.length) {n : Nat}
    (bounded : n ≤ 4 * (key.length / 4 + 7)) :
    (firstWords (key.map BitVec.toNat) n).length = n ∧
      ∀ i, i < n → ShowsWord ((firstWords (key.map BitVec.toNat) n).getD i [])
        (keySchedule (keyWords key) i) := by
  induction n with
  | zero => exact ⟨rfl, fun i impossible => absurd impossible (Nat.not_lt_zero i)⟩
  | succ n inductionHypothesis =>
    obtain ⟨length, shown⟩ := inductionHypothesis (by omega)
    have next : ShowsWord ((firstWords (key.map BitVec.toNat) (n + 1)).getD n [])
        (keySchedule (keyWords key) n) := by
      rw [firstWords, List.getD_append_right _ _ _ _ (Nat.le_of_eq length), length, Nat.sub_self,
        List.length_map]
      by_cases inside : n < key.length / 4
      · simp only [if_pos inside]
        exact shows_key_word key inside
      · obtain ⟨i, rfl⟩ : ∃ i, n = i + key.length / 4 := ⟨n - key.length / 4, by omega⟩
        simp only [if_neg inside]
        exact shows_next_word long (by omega) (shown i (by omega)) (shown _ (by omega))
    refine ⟨by rw [firstWords]; simp [length], fun i before => ?_⟩
    rcases Nat.lt_succ_iff_lt_or_eq.mp before with earlier | rfl
    · rw [firstWords, List.getD_append _ _ _ _ (by omega)]
      exact shown i earlier
    · exact next

/-- `KeyExpansion` returns the schedule of the standard, round key by round key, up to the
last round of its key length. -/
theorem key_expansion_shown (key : List Byte) (long : 16 ≤ key.length) :
    (keyExpansion (key.map BitVec.toNat)).length = 4 * (key.length / 4 + 7) ∧
      ∀ j, j ≤ key.length / 4 + 6 → ∀ c : Fin 4,
        ShowsWord ((keyExpansion (key.map BitVec.toNat)).getD (j * 4 + c) [])
          (roundKeyOf (keyWords key) j c) := by
  have words := first_words_shown key long (Nat.le_refl (4 * (key.length / 4 + 7)))
  have same : keyExpansion (key.map BitVec.toNat) =
      firstWords (key.map BitVec.toNat) (4 * (key.length / 4 + 7)) := by
    simp only [keyExpansion, List.length_map]
  rw [same]
  refine ⟨words.1, fun j bounded c => ?_⟩
  rw [roundKeyOf, Nat.mul_comm 4 j]
  exact words.2 (j * 4 + c) (by omega)

/-- The rounds are those of the standard, as long as there are round keys. The induction is
over the rounds. -/
theorem rounds_shown {w s : List (List Nat)} {state : State} {keys : Nat → Fin 4 → Word}
    {round last : Nat} (shown : Shows s state)
    (words : ∀ j, j ≤ last → ∀ c : Fin 4, ShowsWord (w.getD (j * 4 + c) []) (keys j c))
    (bounded : round ≤ last) :
    Shows (rounds w s round) (layers.forward keys (layers.add (keys 0) state) round) := by
  induction round with
  | zero => exact shows_add shown (words 0 bounded)
  | succ round inductionHypothesis =>
    have earlier := inductionHypothesis (by omega)
    exact shows_add (shows_mix (shows_sub earlier)) (words (round + 1) bounded)

/-- The output lists the bytes of the state it shows, column by column. -/
theorem output_shown {s : List (List Nat)} {state : State} (shown : Shows s state) :
    ((List.range 16).map fun i => entry s (i % 4) (i / 4)) =
      (bytesOf state).map BitVec.toNat := by
  rw [bytesOf, List.map_map]
  apply List.map_congr_left
  intro i member
  have inside : i < 16 := List.mem_range.mp member
  have column : i / 4 % 4 = i / 4 := Nat.mod_eq_of_lt (by omega)
  have looked := shown (Fin.ofNat 4 i) (Fin.ofNat 4 (i / 4))
  rw [Fin.val_ofNat, Fin.val_ofNat, column] at looked
  exact looked

/-- `Cipher` after `KeyExpansion` is Cipher on the block of its input. Inputs shorter than a
block are filled up with zeros. -/
theorem cipher_bytes (key text : List Byte) (long : 16 ≤ key.length) :
    cipher (text.map BitVec.toNat) (keyExpansion (key.map BitVec.toNat)) =
      (blockBytes (cipherOf (keyWords key) (blockOf text))).map BitVec.toNat := by
  obtain ⟨length, words⟩ := key_expansion_shown key long
  have number : 4 * (key.length / 4 + 7) / 4 - 1 = key.length / 4 + 6 := by omega
  have start :
      Shows (build fun r c => (text.map BitVec.toNat).getD (r + 4 * c) 0) (stateOf text) := by
    intro r c
    rw [entry_build, get_bytes]
    rfl
  have inner : Shows (rounds (keyExpansion (key.map BitVec.toNat))
      (build fun r c => (text.map BitVec.toNat).getD (r + 4 * c) 0) (key.length / 4 + 5))
      (layers.forward (roundKeyOf (keyWords key))
        (layers.add (roundKeyOf (keyWords key) 0) (stateOf text)) (key.length / 4 + 5)) :=
    rounds_shown start words (by omega)
  have final := shows_add (shows_sub inner) (words (key.length / 4 + 6) (Nat.le_refl _))
  rw [cipher, length, number, blockBytes, blockOf, cipherOf, to_state_of_state,
    to_state_of_state, length_key_words]
  exact output_shown final

/-- `Cipher` after `KeyExpansion` is Cipher, for every block and any key of sixteen bytes or
more, so for the three key lengths of the standard. -/
theorem cipher_exact (key : List Byte) (text : Block) (long : 16 ≤ key.length) :
    cipher ((blockBytes text).map BitVec.toNat) (keyExpansion (key.map BitVec.toNat)) =
      (blockBytes (cipherOf (keyWords key) text)).map BitVec.toNat := by
  rw [cipher_bytes key (blockBytes text) long, block_of_block_bytes]

/-- The block of zeros under the 192-bit key of zeros, as a case of a key of six words. -/
theorem cipher_exact_zero :
    cipher ((blockBytes 0#128).map BitVec.toNat)
        (keyExpansion ((List.replicate 24 0#8).map BitVec.toNat)) =
      (blockBytes (cipherOf (keyWords (List.replicate 24 0#8)) 0#128)).map BitVec.toNat :=
  cipher_exact (List.replicate 24 0#8) 0#128 (by decide)

end AesCore.PythonAes
