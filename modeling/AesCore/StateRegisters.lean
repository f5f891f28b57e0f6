import AesCore.Fips197

/-!
# State bytes and key words of the two cores

Both cores keep the cipher state in sixteen byte registers `sa00` to `sa33`, row
first, and receive a round key as four words `w0` to `w3`. The three pieces of
wiring they share are the addition of the four words to the bytes, the load of a
text block combined with that addition, and the layout of the bytes in the 128-bit
output. Read as a FIPS-197 state, they are `AddRoundKey`, the initial
`AddRoundKey`, and the output mapping.

The registers in front of this wiring follow the load in both cores alike: the text is
registered with it, combined with the round key one clock later, and transformed by one
round in every clock from then on. `Fed.after_load` says so for any round.
-/

namespace AesCore.StateRegisters

open ByteField (Byte)
open Fips197

/-- The four words of a round key, as `wo_0` to `wo_3` or `w0` to `w3`. A record keeps their
names. -/
structure Words where
  w0 : Word
  w1 : Word
  w2 : Word
  w3 : Word
  deriving DecidableEq, Inhabited

/-- Word `c` of a round key. Proofs about all four words use the index, and the wiring uses
the names. -/
def Words.word (w : Words) : Fin 4 → Word
  | 0 => w.w0
  | 1 => w.w1
  | 2 => w.w2
  | 3 => w.w3

/-- The registers `sa00` to `sa33`. The first digit is the row and the second one the
column. -/
structure Sa where
  sa00 : Byte
  sa01 : Byte
  sa02 : Byte
  sa03 : Byte
  sa10 : Byte
  sa11 : Byte
  sa12 : Byte
  sa13 : Byte
  sa20 : Byte
  sa21 : Byte
  sa22 : Byte
  sa23 : Byte
  sa30 : Byte
  sa31 : Byte
  sa32 : Byte
  sa33 : Byte
  deriving DecidableEq, Inhabited

/-- The bytes as a state of the standard: register `sa` with digits `r` and `c` is row `r`
of column `c`. -/
def Sa.state (s : Sa) : State
  | 0, 0 => s.sa00
  | 0, 1 => s.sa01
  | 0, 2 => s.sa02
  | 0, 3 => s.sa03
  | 1, 0 => s.sa10
  | 1, 1 => s.sa11
  | 1, 2 => s.sa12
  | 1, 3 => s.sa13
  | 2, 0 => s.sa20
  | 2, 1 => s.sa21
  | 2, 2 => s.sa22
  | 2, 3 => s.sa23
  | 3, 0 => s.sa30
  | 3, 1 => s.sa31
  | 3, 2 => s.sa32
  | 3, 3 => s.sa33

/-- A property of all rows and columns is checked at the sixteen registers, so that a
statement about the state can be split into statements about wires. -/
theorem forall_registers (holds : Fin 4 → Fin 4 → Prop)
    (row0 : holds 0 0 ∧ holds 0 1 ∧ holds 0 2 ∧ holds 0 3)
    (row1 : holds 1 0 ∧ holds 1 1 ∧ holds 1 2 ∧ holds 1 3)
    (row2 : holds 2 0 ∧ holds 2 1 ∧ holds 2 2 ∧ holds 2 3)
    (row3 : holds 3 0 ∧ holds 3 1 ∧ holds 3 2 ∧ holds 3 3) : ∀ r c, holds r c := by
  intro r c
  match r, c with
  | 0, 0 => exact row0.1
  | 0, 1 => exact row0.2.1
  | 0, 2 => exact row0.2.2.1
  | 0, 3 => exact row0.2.2.2
  | 1, 0 => exact row1.1
  | 1, 1 => exact row1.2.1
  | 1, 2 => exact row1.2.2.1
  | 1, 3 => exact row1.2.2.2
  | 2, 0 => exact row2.1
  | 2, 1 => exact row2.2.1
  | 2, 2 => exact row2.2.2.1
  | 2, 3 => exact row2.2.2.2
  | 3, 0 => exact row3.1
  | 3, 1 => exact row3.2.1
  | 3, 2 => exact row3.2.2.1
  | 3, 3 => exact row3.2.2.2

/-- Two states are equal when they agree at the sixteen registers, given row by row. -/
theorem state_ext {left right : State}
    (row0 : left 0 0 = right 0 0 ∧ left 0 1 = right 0 1 ∧ left 0 2 = right 0 2 ∧ left 0 3 = right 0 3)
    (row1 : left 1 0 = right 1 0 ∧ left 1 1 = right 1 1 ∧ left 1 2 = right 1 2 ∧ left 1 3 = right 1 3)
    (row2 : left 2 0 = right 2 0 ∧ left 2 1 = right 2 1 ∧ left 2 2 = right 2 2 ∧ left 2 3 = right 2 3)
    (row3 : left 3 0 = right 3 0 ∧ left 3 1 = right 3 1 ∧ left 3 2 = right 3 2 ∧
      left 3 3 = right 3 3) : left = right := by
  funext r c
  exact forall_registers (fun r c => left r c = right r c) row0 row1 row2 row3 r c

/-- Sixteen instances of one byte function, such as the S-boxes `us00` to `us33`. -/
def Sa.map (s : Sa) (f : Byte → Byte) : Sa where
  sa00 := f s.sa00
  sa01 := f s.sa01
  sa02 := f s.sa02
  sa03 := f s.sa03
  sa10 := f s.sa10
  sa11 := f s.sa11
  sa12 := f s.sa12
  sa13 := f s.sa13
  sa20 := f s.sa20
  sa21 := f s.sa21
  sa22 := f s.sa22
  sa23 := f s.sa23
  sa30 := f s.sa30
  sa31 := f s.sa31
  sa32 := f s.sa32
  sa33 := f s.sa33

/-- The assignment of four words to the columns `{sa00, sa10, sa20, sa30}` to
`{sa03, sa13, sa23, sa33}`. -/
def Sa.ofColumns (col0 col1 col2 col3 : Word) : Sa where
  sa00 := col0.extractLsb 31 24
  sa10 := col0.extractLsb 23 16
  sa20 := col0.extractLsb 15 8
  sa30 := col0.extractLsb 7 0
  sa01 := col1.extractLsb 31 24
  sa11 := col1.extractLsb 23 16
  sa21 := col1.extractLsb 15 8
  sa31 := col1.extractLsb 7 0
  sa02 := col2.extractLsb 31 24
  sa12 := col2.extractLsb 23 16
  sa22 := col2.extractLsb 15 8
  sa32 := col2.extractLsb 7 0
  sa03 := col3.extractLsb 31 24
  sa13 := col3.extractLsb 23 16
  sa23 := col3.extractLsb 15 8
  sa33 := col3.extractLsb 7 0

/-- Each byte plus its byte of the round key: `sa00 ^ w0[31:24]` to `sa33 ^ w3[07:00]`. -/
def Sa.xorWords (s : Sa) (w : Words) : Sa where
  sa00 := s.sa00 ^^^ w.w0.extractLsb 31 24
  sa01 := s.sa01 ^^^ w.w1.extractLsb 31 24
  sa02 := s.sa02 ^^^ w.w2.extractLsb 31 24
  sa03 := s.sa03 ^^^ w.w3.extractLsb 31 24
  sa10 := s.sa10 ^^^ w.w0.extractLsb 23 16
  sa11 := s.sa11 ^^^ w.w1.extractLsb 23 16
  sa12 := s.sa12 ^^^ w.w2.extractLsb 23 16
  sa13 := s.sa13 ^^^ w.w3.extractLsb 23 16
  sa20 := s.sa20 ^^^ w.w0.extractLsb 15 8
  sa21 := s.sa21 ^^^ w.w1.extractLsb 15 8
  sa22 := s.sa22 ^^^ w.w2.extractLsb 15 8
  sa23 := s.sa23 ^^^ w.w3.extractLsb 15 8
  sa30 := s.sa30 ^^^ w.w0.extractLsb 7 0
  sa31 := s.sa31 ^^^ w.w1.extractLsb 7 0
  sa32 := s.sa32 ^^^ w.w2.extractLsb 7 0
  sa33 := s.sa33 ^^^ w.w3.extractLsb 7 0

/-- Module `aes_xor`: the next value of one state byte, either text plus key or what the
round makes of it. -/
def aesXor (ldR : Bool) (textIn wI saI : Byte) : Byte := if ldR then textIn ^^^ wI else saI

/-- Module `aes_addroundkey`: sixteen instances of `aes_xor`, one for each byte of
the registered text. -/
def aesAddroundkey (ldR : Bool) (textInR : Block) (w : Words) (next : Sa) : Sa where
  sa33 := aesXor ldR (textInR.extractLsb 7 0) (w.w3.extractLsb 7 0) next.sa33
  sa23 := aesXor ldR (textInR.extractLsb 15 8) (w.w3.extractLsb 15 8) next.sa23
  sa13 := aesXor ldR (textInR.extractLsb 23 16) (w.w3.extractLsb 23 16) next.sa13
  sa03 := aesXor ldR (textInR.extractLsb 31 24) (w.w3.extractLsb 31 24) next.sa03
  sa32 := aesXor ldR (textInR.extractLsb 39 32) (w.w2.extractLsb 7 0) next.sa32
  sa22 := aesXor ldR (textInR.extractLsb 47 40) (w.w2.extractLsb 15 8) next.sa22
  sa12 := aesXor ldR (textInR.extractLsb 55 48) (w.w2.extractLsb 23 16) next.sa12
  sa02 := aesXor ldR (textInR.extractLsb 63 56) (w.w2.extractLsb 31 24) next.sa02
  sa31 := aesXor ldR (textInR.extractLsb 71 64) (w.w1.extractLsb 7 0) next.sa31
  sa21 := aesXor ldR (textInR.extractLsb 79 72) (w.w1.extractLsb 15 8) next.sa21
  sa11 := aesXor ldR (textInR.extractLsb 87 80) (w.w1.extractLsb 23 16) next.sa11
  sa01 := aesXor ldR (textInR.extractLsb 95 88) (w.w1.extractLsb 31 24) next.sa01
  sa30 := aesXor ldR (textInR.extractLsb 103 96) (w.w0.extractLsb 7 0) next.sa30
  sa20 := aesXor ldR (textInR.extractLsb 111 104) (w.w0.extractLsb 15 8) next.sa20
  sa10 := aesXor ldR (textInR.extractLsb 119 112) (w.w0.extractLsb 23 16) next.sa10
  sa00 := aesXor ldR (textInR.extractLsb 127 120) (w.w0.extractLsb 31 24) next.sa00

/-- The layout of sixteen bytes in `text_out`: `sa00` in bits 127:120, `sa10` in bits
119:112, and so on down to `sa33` in bits 7:0. -/
def Sa.textOut (s : Sa) : Block :=
  (s.sa00 ++ s.sa10 ++ s.sa20 ++ s.sa30) ++ (s.sa01 ++ s.sa11 ++ s.sa21 ++ s.sa31) ++
    (s.sa02 ++ s.sa12 ++ s.sa22 ++ s.sa32) ++ (s.sa03 ++ s.sa13 ++ s.sa23 ++ s.sa33)

/-- Function `xtime` of both cores: a shift, and the polynomial where a bit falls out. -/
def xtime (b : Byte) : Byte :=
  (b.extractLsb 6 0 ++ 0#1) ^^^ (0x1b#8 &&& (b.extractLsb 7 7).replicate 8)

/-- Function `xtime` is multiplication by `x`. There are 256 bytes, and each is checked. -/
theorem xtime_eq : ∀ b : Byte, xtime b = ByteField.xtime b := by decide +kernel

/-- A byte function on the registers acts on every byte of the state, without moving one. -/
theorem state_map (s : Sa) (f : Byte → Byte) : (s.map f).state = fun r c => f (s.state r c) :=
  state_ext ⟨rfl, rfl, rfl, rfl⟩ ⟨rfl, rfl, rfl, rfl⟩ ⟨rfl, rfl, rfl, rfl⟩ ⟨rfl, rfl, rfl, rfl⟩

/-- Words assigned to the columns are the columns of the state, with the highest byte in row
zero. -/
theorem state_of_columns (col : Fin 4 → Word) :
    (Sa.ofColumns (col 0) (col 1) (col 2) (col 3)).state = fun r c => wordByte (col c) r :=
  state_ext ⟨rfl, rfl, rfl, rfl⟩ ⟨rfl, rfl, rfl, rfl⟩ ⟨rfl, rfl, rfl, rfl⟩ ⟨rfl, rfl, rfl, rfl⟩

/-- Adding four words to the registers is `AddRoundKey`, word `c` to column `c`. -/
theorem state_xor_words (s : Sa) (w : Words) :
    (s.xorWords w).state = addRoundKey w.word s.state :=
  state_ext ⟨rfl, rfl, rfl, rfl⟩ ⟨rfl, rfl, rfl, rfl⟩ ⟨rfl, rfl, rfl, rfl⟩ ⟨rfl, rfl, rfl, rfl⟩

/-- Byte `r` of word `c` of a block, by its position in the block. The first byte of the
standard is in the highest bits. -/
theorem to_state_apply (block : Block) :
    toState block = fun r c => block.extractLsb' (96 - 32 * c.val + (24 - 8 * r.val)) 8 := by
  funext r c
  apply BitVec.eq_of_getLsbD_eq
  intro i inside
  have within : 24 - 8 * r.val + i < 32 := by omega
  simp only [toState, wordByte, blockWord, BitVec.getLsbD_extractLsb', inside, within, decide_true,
    Bool.true_and, Nat.add_assoc]

/-- With `ld_r` set, the registers receive the registered text plus the round key, which is
the addition before the first round. -/
theorem state_addroundkey_load (textInR : Block) (w : Words) (next : Sa) :
    (aesAddroundkey true textInR w next).state = addRoundKey w.word (toState textInR) := by
  rw [to_state_apply]
  exact state_ext ⟨rfl, rfl, rfl, rfl⟩ ⟨rfl, rfl, rfl, rfl⟩ ⟨rfl, rfl, rfl, rfl⟩
    ⟨rfl, rfl, rfl, rfl⟩

/-- With `ld_r` clear, the registers receive the next bytes of the round, whatever text is
registered. -/
theorem addroundkey_pass (textInR : Block) (w : Words) (next : Sa) :
    aesAddroundkey false textInR w next = next := rfl

/-- How the registers `ld_r`, `text_in_r` and `sa` of both cores follow the load and text
inputs over a run, given the words `w` of each clock and the wires `next` of one round. -/
structure Fed (next : Sa → Words → Sa) (ld : Nat → Bool) (textIn : Nat → Block) (w : Nat → Words)
    (ldR : Nat → Bool) (textInR : Nat → Block) (sa : Nat → Sa) : Prop where
  accepted : ∀ n, ldR (n + 1) = ld n
  registered : ∀ n, textInR (n + 1) = if ld n then textIn n else textInR n
  advanced : ∀ n, sa (n + 1) = aesAddroundkey (ldR n) (textInR n) (w n) (next (sa n) (w n))

/-- Two clocks after a load the state bytes hold the text with the words of the clock between
added, and each further clock without a load is a round with the words of its clock. -/
theorem Fed.after_load {next : Sa → Words → Sa} {ld : Nat → Bool} {textIn : Nat → Block}
    {w : Nat → Words} {ldR : Nat → Bool} {textInR : Nat → Block} {sa rounds : Nat → Sa} {m j : Nat}
    (fed : Fed next ld textIn w ldR textInR sa)
    (first : rounds 0 = aesAddroundkey true (textIn m) (w (m + 1)) default)
    (further : ∀ k, rounds (k + 1) = next (rounds k) (w (m + 1 + (k + 1))))
    (loaded : ld m = true) (alone : ∀ i, m < i → i ≤ m + j → ld i = false) :
    sa (m + 2 + j) = rounds j := by
  induction j with
  | zero =>
    change sa (m + 1 + 1) = rounds 0
    rw [fed.advanced, fed.accepted, fed.registered, loaded, first]
    rfl
  | succ j inductionHypothesis =>
    have earlier := inductionHypothesis fun i after before => alone i after (by omega)
    have passing : ldR (m + 2 + j) = false := by
      rw [show m + 2 + j = m + 1 + j + 1 by omega, fed.accepted]
      exact alone (m + 1 + j) (by omega) (by omega)
    have words : w (m + 2 + j) = w (m + 1 + (j + 1)) := by
      rw [show m + 2 + j = m + 1 + (j + 1) by omega]
    rw [← Nat.add_assoc, fed.advanced, passing, addroundkey_pass, earlier, words, further]

/-- The output layout is the output mapping of the standard, column by column from the
highest bits down. -/
theorem text_out_eq (s : Sa) : s.textOut = ofState s.state := rfl

end AesCore.StateRegisters
