import AesCore.Clocked
import AesCore.KeyExpand

/-!
# The decryption core

Module `aes_inv_cipher_top`: a counter `dcnt` that runs upwards while `go` is set,
the state bytes with the wires of one inverse round, and a buffer `kb` of eleven
round keys. A key load fills the buffer from slot 10 down while the schedule
advances; a decryption reads it from slot 0 up, one clock ahead through the
registers `w0` to `w3`. Nothing connects the two counters.

A read of `kb` past slot 10 has no value in the language, so every clock is given
the block that such a read would return, and all results hold for every choice.

This module covers the data path. What `text_out` shows is the inverse cipher with
whatever words the `w` registers held; the modules that follow say which words
those are.
-/

namespace AesCore.InvCipherTop

open ByteField (Byte)
open Fips197
open Sbox (aesInvSbox)
open StateRegisters

/-- The inputs sampled by a clock. The reset is active low. A key load and a load of a text
are separate pulses. -/
structure Inputs where
  rst : Bool
  kld : Bool
  ld : Bool
  key : Block
  textIn : Block
  deriving DecidableEq, Inhabited

/-- The registers of `aes_inv_cipher_top` and of its key schedule `u0`, with the buffer of
eleven round keys between them. -/
structure Registers where
  w : Words
  textInR : Block
  textOut : Block
  sa : Sa
  ldR : Bool
  go : Bool
  done : Bool
  dcnt : BitVec 4
  kb : Vector Block 11
  kcnt : BitVec 4
  kdone : Bool
  kbLd : Bool
  u0 : KeyExpand.Registers
  deriving DecidableEq, Inhabited

/-- The concatenation `{w3, w2, w1, w0}` in which `kb` keeps a round key. The word with the
highest number takes the highest bits. -/
def pack (w : Words) : Block := w.w3 ++ w.w2 ++ w.w1 ++ w.w0

/-- The assignment to the concatenation `{w3, w2, w1, w0}`, which takes a slot apart
again. -/
def unpack (b : Block) : Words where
  w3 := b.extractLsb 127 96
  w2 := b.extractLsb 95 64
  w1 := b.extractLsb 63 32
  w0 := b.extractLsb 31 0

/-- Function `pmul_e`, multiplication by the constant `0e`. -/
def pmulE (b : Byte) : Byte :=
  let two := xtime b
  let four := xtime two
  let eight := xtime four
  eight ^^^ four ^^^ two

/-- Function `pmul_9`, multiplication by the constant `09`. -/
def pmul9 (b : Byte) : Byte :=
  let two := xtime b
  let four := xtime two
  let eight := xtime four
  eight ^^^ b

/-- Function `pmul_d`, multiplication by the constant `0d`. -/
def pmulD (b : Byte) : Byte :=
  let two := xtime b
  let four := xtime two
  let eight := xtime four
  eight ^^^ four ^^^ b

/-- Function `pmul_b`, multiplication by the constant `0b`. -/
def pmulB (b : Byte) : Byte :=
  let two := xtime b
  let four := xtime two
  let eight := xtime four
  eight ^^^ two ^^^ b

/-- Function `inv_mix_col`. It returns the four bytes of a column with its mixing undone,
the first one in the highest bits. -/
def invMixCol (s0 s1 s2 s3 : Byte) : Word :=
  (pmulE s0 ^^^ pmulB s1 ^^^ pmulD s2 ^^^ pmul9 s3) ++
    (pmul9 s0 ^^^ pmulE s1 ^^^ pmulB s2 ^^^ pmulD s3) ++
    (pmulD s0 ^^^ pmul9 s1 ^^^ pmulE s2 ^^^ pmulB s3) ++
    (pmulB s0 ^^^ pmulD s1 ^^^ pmul9 s2 ^^^ pmulE s3)

/-- The wires `sa00_sr` to `sa33_sr`, which only rename bytes: row `r` moves back by `r`
places. -/
def sr (sa : Sa) : Sa where
  sa00 := sa.sa00
  sa01 := sa.sa01
  sa02 := sa.sa02
  sa03 := sa.sa03
  sa10 := sa.sa13
  sa11 := sa.sa10
  sa12 := sa.sa11
  sa13 := sa.sa12
  sa20 := sa.sa22
  sa21 := sa.sa23
  sa22 := sa.sa20
  sa23 := sa.sa21
  sa30 := sa.sa31
  sa31 := sa.sa32
  sa32 := sa.sa33
  sa33 := sa.sa30

/-- The instances `us00` to `us33` of `aes_inv_sbox`, one for each byte of the state. -/
def sub (sr : Sa) : Sa := sr.map aesInvSbox

/-- The wires `sa00_ark` to `sa33_ark`, with the round key added before the mixing is
undone. In the last round they are offered to `text_out`. -/
def ark (sa : Sa) (w : Words) : Sa := (sub (sr sa)).xorWords w

/-- The wires `sa00_next` to `sa33_next`, one call of `inv_mix_col` for each column. -/
def saNext (ark : Sa) : Sa :=
  Sa.ofColumns (invMixCol ark.sa00 ark.sa10 ark.sa20 ark.sa30)
    (invMixCol ark.sa01 ark.sa11 ark.sa21 ark.sa31) (invMixCol ark.sa02 ark.sa12 ark.sa22 ark.sa32)
    (invMixCol ark.sa03 ark.sa13 ark.sa23 ark.sa33)

/-- The word `kb[dcnt]`, or `outside` where `dcnt` is past the last slot. It is read in
every clock, one clock before it is used. -/
def prefetch (s : Registers) (outside : Block) : Block := s.kb[s.dcnt.toNat]?.getD outside

/-- One clock of `aes_inv_cipher_top`. Writer and reader of the key buffer work in the same
clock, and the reader finds what the slot held before it. The bit `done` does not look at
the reset. -/
def step (s : Registers) (i : Inputs) (outside : Block) : Registers where
  dcnt :=
    if !i.rst then 0x0#4
    else if s.done then 0x0#4
    else if i.ld then 0x1#4
    else if s.go then s.dcnt + 0x1#4
    else s.dcnt
  done := s.dcnt == 0xb#4 && !i.ld
  go :=
    if !i.rst then false
    else if i.ld then true
    else if s.done then false
    else s.go
  textInR := if i.ld then i.textIn else s.textInR
  ldR := i.ld
  sa := aesAddroundkey s.ldR s.textInR s.w (saNext (ark s.sa s.w))
  textOut := (ark s.sa s.w).textOut
  kcnt :=
    if !i.rst then 0xa#4
    else if i.kld then 0xa#4
    else if s.kbLd then s.kcnt - 0x1#4
    else s.kcnt
  kbLd :=
    if !i.rst then false
    else if i.kld then true
    else if s.kcnt == 0x0#4 then false
    else s.kbLd
  kdone := s.kcnt == 0x0#4 && !i.kld
  kb := if s.kbLd then s.kb.setIfInBounds s.kcnt.toNat (pack s.u0.w) else s.kb
  w := unpack (prefetch s outside)
  u0 := KeyExpand.step s.u0 i.kld i.key

/-- A run of the core: its initial contents, its inputs, and the blocks that reads
past the end of `kb` return. -/
structure Run where
  start : Registers
  inputs : Nat → Inputs
  outside : Nat → Block

/-- The registers before each clock of a run, from its start on. -/
def Run.state (run : Run) : Nat → Registers :=
  Clocked.run (fun n s => step s (run.inputs n) (run.outside n)) run.start

/-- One clock of a run. It is the equation by which proofs step the core. -/
theorem Run.state_succ (run : Run) (n : Nat) :
    run.state (n + 1) = step (run.state n) (run.inputs n) (run.outside n) := rfl

/-- Multiplication by the four coefficients of `InvMixColumns`, as `inv_mix_col` computes
it. Each identity is linear and checked on the eight powers of two. -/
theorem inv_mix_coefficients (b : Byte) :
    ByteField.mul 0x0e#8 b = pmulE b ∧ ByteField.mul 0x0b#8 b = pmulB b ∧
      ByteField.mul 0x0d#8 b = pmulD b ∧ ByteField.mul 0x09#8 b = pmul9 b := by
  have one : Circulant.Linear xtime := by
    intro a b
    simp only [xtime_eq, ByteField.xtime_linear a b]
  have two := one.comp one
  have three := two.comp one
  have powers : ∀ i, i < 8 →
      ByteField.mul 0x0e#8 (BitVec.twoPow 8 i) = pmulE (BitVec.twoPow 8 i) ∧
      ByteField.mul 0x0b#8 (BitVec.twoPow 8 i) = pmulB (BitVec.twoPow 8 i) ∧
      ByteField.mul 0x0d#8 (BitVec.twoPow 8 i) = pmulD (BitVec.twoPow 8 i) ∧
      ByteField.mul 0x09#8 (BitVec.twoPow 8 i) = pmul9 (BitVec.twoPow 8 i) := by
    decide +kernel
  exact ⟨(ByteField.mul_linear _).ext ((three.add two).add one)
      (fun i inside => (powers i inside).1) b,
    (ByteField.mul_linear _).ext ((three.add one).add Circulant.linear_id)
      (fun i inside => (powers i inside).2.1) b,
    (ByteField.mul_linear _).ext ((three.add two).add Circulant.linear_id)
      (fun i inside => (powers i inside).2.2.1) b,
    (ByteField.mul_linear _).ext (three.add Circulant.linear_id)
      (fun i inside => (powers i inside).2.2.2) b⟩

/-- The four bytes that `inv_mix_col` returns are the column with its mixing undone. -/
theorem inv_mix_col_eq (f : Fin 4 → Byte) (r : Fin 4) :
    wordByte (invMixCol (f 0) (f 1) (f 2) (f 3)) r = ByteField.invMixColumn f r := by
  have e (b : Byte) := (inv_mix_coefficients b).1
  have b (b : Byte) := (inv_mix_coefficients b).2.1
  have d (b : Byte) := (inv_mix_coefficients b).2.2.1
  have nine (b : Byte) := (inv_mix_coefficients b).2.2.2
  rw [← word_byte_of_bytes (ByteField.invMixColumn f) r]
  refine congrArg (fun word => wordByte word r) ?_
  simp only [ByteField.invMixColumn, Circulant.circulant, ByteField.invMixCoefficient, e, b, d,
    nine, Fin.isValue, Fin.reduceAdd, invMixCol]
  ac_rfl

/-- The row wiring is `InvShiftRows`. Each of the sixteen wires is compared with its place
in the standard. -/
theorem state_sr (sa : Sa) : (sr sa).state = invShiftRows sa.state :=
  state_ext ⟨rfl, rfl, rfl, rfl⟩ ⟨rfl, rfl, rfl, rfl⟩ ⟨rfl, rfl, rfl, rfl⟩ ⟨rfl, rfl, rfl, rfl⟩

/-- The sixteen inverse S-boxes are `InvSubBytes`, since the table of `aes_inv_sbox` is the
inverse S-box of the standard. -/
theorem state_sub (sa : Sa) : (sub sa).state = invSubBytes sa.state := by
  simp only [sub, state_map, Sbox.aes_inv_sbox_eq]
  rfl

/-- The bytes offered to `text_out` are the last inverse round of the standard, with the
words at hand as its round key. -/
theorem state_ark (sa : Sa) (w : Words) :
    (ark sa w).state = layers.add w.word (layers.unsub sa.state) := by
  rw [ark, state_xor_words, state_sub, state_sr]
  rfl

/-- The four calls of `inv_mix_col` are `InvMixColumns`, one for each column of the
state. -/
theorem state_next (sa : Sa) : (saNext sa).state = layers.unmix sa.state := by
  have columns := state_of_columns fun c =>
    invMixCol (sa.state 0 c) (sa.state 1 c) (sa.state 2 c) (sa.state 3 c)
  refine columns.trans ?_
  funext r c
  exact inv_mix_col_eq (fun i => sa.state i c) r

/-- The state bytes after the initial addition of `slots 0` and `j` inverse rounds with
the words that follow it, as the wires compute them. -/
def rounds (slots : Nat → Words) (text : Block) : Nat → Sa
  | 0 => aesAddroundkey true text (slots 0) default
  | j + 1 => saNext (ark (rounds slots text j) (slots (j + 1)))

/-- The text that the wires offer after `inner` inverse rounds, when they are given the
words `slots` one after the other. -/
def decipher (inner : Nat) (slots : Nat → Words) (text : Block) : Block :=
  (ark (rounds slots text inner) (slots (inner + 1))).textOut

/-- The composed wires are the inverse rounds of the standard, for any words. The induction
is over the rounds. -/
theorem state_rounds (slots : Nat → Words) (text : Block) (j : Nat) :
    (rounds slots text j).state = layers.backward (fun k => (slots k).word)
      (layers.add (slots 0).word (toState text)) j := by
  induction j with
  | zero => exact state_addroundkey_load text (slots 0) default
  | succ j inductionHypothesis =>
    rw [rounds, state_next, state_ark, inductionHypothesis]
    rfl

/-- The offered text is the inverse cipher of the standard, for any words. So it can be said
what comes out even where the words do not belong to one key. -/
theorem decipher_eq (inner : Nat) (slots : Nat → Words) (text : Block) :
    decipher inner slots text =
      ofState (layers.decrypt inner (fun k => (slots k).word) (toState text)) := by
  rw [decipher, text_out_eq, state_ark, state_rounds]
  rfl

/-- The words in the `w` registers from clock `u + 1` on, in the order in which a load at
clock `u` consumes them. -/
def Run.slots (run : Run) (u k : Nat) : Words := (run.state (u + 1 + k)).w

/-- Two clocks after a load the state bytes hold the text with slot zero added, and each
further clock without a load is an inverse round with the next slot. -/
theorem sa_after_load (run : Run) {u j : Nat} (loaded : (run.inputs u).ld = true)
    (alone : ∀ i, u < i → i ≤ u + j → (run.inputs i).ld = false) :
    (run.state (u + 2 + j)).sa = rounds (run.slots u) (run.inputs u).textIn j := by
  have fed : Fed (fun sa w => saNext (ark sa w)) (fun n => (run.inputs n).ld)
      (fun n => (run.inputs n).textIn) (fun n => (run.state n).w) (fun n => (run.state n).ldR)
      (fun n => (run.state n).textInR) (fun n => (run.state n).sa) :=
    ⟨fun _ => rfl, fun _ => rfl, fun _ => rfl⟩
  exact fed.after_load rfl (fun _ => rfl) loaded alone

/-- After a load at clock `u` and `inner` further clocks without one, the text is the
inverse cipher with `inner` full rounds and the words that the `w` registers held
from clock `u + 1` on. No other register takes part. -/
theorem text_out_after_load (run : Run) {u : Nat} (inner : Nat) (loaded : (run.inputs u).ld = true)
    (alone : ∀ i, u < i → i ≤ u + inner → (run.inputs i).ld = false) :
    (run.state (u + 3 + inner)).textOut =
      ofState (layers.decrypt inner (fun k => (run.slots u k).word)
        (toState (run.inputs u).textIn)) := by
  have slot : (run.state (u + 2 + inner)).w = run.slots u (inner + 1) := by
    rw [Run.slots, show u + 1 + (inner + 1) = u + 2 + inner by omega]
  rw [← decipher_eq, show u + 3 + inner = u + 2 + inner + 1 by omega, run.state_succ]
  simp only [step, sa_after_load run loaded alone, slot, decipher]

end AesCore.InvCipherTop
