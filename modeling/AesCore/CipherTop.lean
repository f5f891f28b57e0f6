import AesCore.KeySchedule

/-!
# The encryption core

Module `aes_cipher_top`: a loadable down counter `dcnt`, the registered text, the
sixteen state bytes with the wires of one round between them, and the key schedule
running alongside. A clock with `ld` starts an operation; nothing waits for one to
finish.

The wires of the rounds compose to `encipher`, which is the cipher of the standard for
any round keys. A load fixes everything that reaches `text_out` twelve clocks later,
so the data path needs no invariant of the whole core: the registers follow
`encipher` from any contents, as long as no other load interferes.
-/

namespace AesCore.CipherTop

open ByteField (Byte)
open Fips197
open Sbox (aesSbox)
open StateRegisters

/-- The inputs sampled by a clock. The reset is active low, and a load takes key and text
together. -/
structure Inputs where
  rst : Bool
  ld : Bool
  key : Block
  textIn : Block
  deriving DecidableEq, Inhabited

/-- The registers of `aes_cipher_top` and of its key schedule `u0`. Nothing is said of their
contents at the start of a run. -/
structure Registers where
  textInR : Block
  textOut : Block
  sa : Sa
  done : Bool
  ldR : Bool
  dcnt : BitVec 4
  u0 : KeyExpand.Registers
  deriving DecidableEq, Inhabited

/-- Function `mix_col`. It returns the four bytes of a mixed column, the first one in the
highest bits. -/
def mixCol (s0 s1 s2 s3 : Byte) : Word :=
  (xtime s0 ^^^ xtime s1 ^^^ s1 ^^^ s2 ^^^ s3) ++
    (s0 ^^^ xtime s1 ^^^ xtime s2 ^^^ s2 ^^^ s3) ++
    (s0 ^^^ s1 ^^^ xtime s2 ^^^ xtime s3 ^^^ s3) ++
    (xtime s0 ^^^ s0 ^^^ s1 ^^^ s2 ^^^ xtime s3)

/-- The instances `us00` to `us33` of `aes_sbox`, one for each byte of the state. -/
def sub (sa : Sa) : Sa := sa.map aesSbox

/-- The wires `sa00_sr` to `sa33_sr`, which only rename bytes: row `r` moves by `r`
places. -/
def sr (sub : Sa) : Sa where
  sa00 := sub.sa00
  sa01 := sub.sa01
  sa02 := sub.sa02
  sa03 := sub.sa03
  sa10 := sub.sa11
  sa11 := sub.sa12
  sa12 := sub.sa13
  sa13 := sub.sa10
  sa20 := sub.sa22
  sa21 := sub.sa23
  sa22 := sub.sa20
  sa23 := sub.sa21
  sa30 := sub.sa33
  sa31 := sub.sa30
  sa32 := sub.sa31
  sa33 := sub.sa32

/-- The wires `sa00_mc` to `sa33_mc`, one call of `mix_col` for each column. -/
def mc (sr : Sa) : Sa :=
  Sa.ofColumns (mixCol sr.sa00 sr.sa10 sr.sa20 sr.sa30) (mixCol sr.sa01 sr.sa11 sr.sa21 sr.sa31)
    (mixCol sr.sa02 sr.sa12 sr.sa22 sr.sa32) (mixCol sr.sa03 sr.sa13 sr.sa23 sr.sa33)

/-- The next bytes of a round, `sa00_next` to `sa33_next`: substituted, shifted, mixed, and
with the words of the schedule added. -/
def saNext (sa : Sa) (w : Words) : Sa := (mc (sr (sub sa))).xorWords w

/-- The bytes offered to `text_out`: a round without mixing. They are computed in every
clock, and what counts is what the register holds when `done` is set. -/
def saFinal (sa : Sa) (w : Words) : Sa := (sr (sub sa)).xorWords w

/-- One clock of `aes_cipher_top`. Every register is assigned from the values before the
clock; the data path does not look at the reset or at the counter. -/
def step (s : Registers) (i : Inputs) : Registers where
  dcnt :=
    if !i.rst then 0x0#4
    else if i.ld then 0xb#4
    else if s.dcnt != 0x0#4 then s.dcnt - 0x1#4
    else s.dcnt
  done :=
    if i.rst then !(s.dcnt.extractLsb 3 1 != 0b000#3) && s.dcnt.getLsbD 0 && !i.ld
    else false
  textInR := if i.ld then i.textIn else s.textInR
  ldR := i.ld
  sa := aesAddroundkey s.ldR s.textInR s.u0.w (saNext s.sa s.u0.w)
  textOut := (saFinal s.sa s.u0.w).textOut
  u0 := KeyExpand.step s.u0 i.ld i.key

/-- The registers before each clock, for given initial contents and inputs. A run has no
end, and a claim about all its states is a claim about every length. -/
def run (start : Registers) (inputs : Nat → Inputs) : Nat → Registers :=
  Clocked.run (fun n s => step s (inputs n)) start

/-- One clock of a run. It is the equation by which proofs step the core. -/
theorem run_succ (start : Registers) (inputs : Nat → Inputs) (n : Nat) :
    run start inputs (n + 1) = step (run start inputs n) (inputs n) := rfl

/-- Multiplication by the three coefficients of `MixColumns`, as `mix_col` computes it.
Being linear on both sides, each identity is checked on the eight powers of two. -/
theorem mix_coefficients (b : Byte) :
    ByteField.mul 0x02#8 b = xtime b ∧ ByteField.mul 0x03#8 b = xtime b ^^^ b ∧
      ByteField.mul 0x01#8 b = b := by
  have linear : Circulant.Linear xtime := by
    intro a b
    simp only [xtime_eq, ByteField.xtime_linear a b]
  have powers : ∀ i, i < 8 →
      ByteField.mul 0x02#8 (BitVec.twoPow 8 i) = xtime (BitVec.twoPow 8 i) ∧
      ByteField.mul 0x03#8 (BitVec.twoPow 8 i) =
        xtime (BitVec.twoPow 8 i) ^^^ BitVec.twoPow 8 i := by
    decide +kernel
  exact ⟨(ByteField.mul_linear _).ext linear (fun i inside => (powers i inside).1) b,
    (ByteField.mul_linear _).ext (linear.add Circulant.linear_id)
      (fun i inside => (powers i inside).2) b,
    ByteField.one_mul b⟩

/-- The four bytes that `mix_col` returns are the mixed column of its four arguments. -/
theorem mix_col_eq (f : Fin 4 → Byte) (r : Fin 4) :
    wordByte (mixCol (f 0) (f 1) (f 2) (f 3)) r = ByteField.mixColumn f r := by
  have two (b : Byte) := (mix_coefficients b).1
  have three (b : Byte) := (mix_coefficients b).2.1
  have one (b : Byte) := (mix_coefficients b).2.2
  rw [← word_byte_of_bytes (ByteField.mixColumn f) r]
  refine congrArg (fun word => wordByte word r) ?_
  simp only [ByteField.mixColumn, Circulant.circulant, ByteField.mixCoefficient, one, two, three,
    Fin.isValue, Fin.reduceAdd, mixCol]
  ac_rfl

/-- The sixteen S-boxes are `SubBytes`, since the table of `aes_sbox` is the S-box of the
standard. -/
theorem state_sub (sa : Sa) : (sub sa).state = subBytes sa.state := by
  simp only [sub, state_map, Sbox.aes_sbox_eq]
  rfl

/-- The row wiring is `ShiftRows`. Each of the sixteen wires is compared with its place in
the standard. -/
theorem state_sr (sa : Sa) : (sr sa).state = shiftRows sa.state :=
  state_ext ⟨rfl, rfl, rfl, rfl⟩ ⟨rfl, rfl, rfl, rfl⟩ ⟨rfl, rfl, rfl, rfl⟩ ⟨rfl, rfl, rfl, rfl⟩

/-- The four calls of `mix_col` are `MixColumns`, one for each column of the state. -/
theorem state_mc (sa : Sa) : (mc sa).state = mixColumns sa.state := by
  have columns := state_of_columns fun c =>
    mixCol (sa.state 0 c) (sa.state 1 c) (sa.state 2 c) (sa.state 3 c)
  refine columns.trans ?_
  funext r c
  exact mix_col_eq (fun i => sa.state i c) r

/-- The next bytes are one full round of the standard with the words at hand as its round
key. -/
theorem state_next (sa : Sa) (w : Words) :
    (saNext sa w).state = layers.add w.word (layers.mix (layers.sub sa.state)) := by
  rw [saNext, state_xor_words, state_mc, state_sr, state_sub]
  rfl

/-- The bytes offered to `text_out` are the last round of the standard, with the words at
hand as its round key. -/
theorem state_final (sa : Sa) (w : Words) :
    (saFinal sa w).state = layers.add w.word (layers.sub sa.state) := by
  rw [saFinal, state_xor_words, state_sr, state_sub]
  rfl

/-- The state bytes after the initial addition of `keys 0` and `j` rounds with the keys that
follow it, as the wires compute them. -/
def rounds (keys : Nat → Words) (text : Block) : Nat → Sa
  | 0 => aesAddroundkey true text (keys 0) default
  | j + 1 => saNext (rounds keys text j) (keys (j + 1))

/-- The text that the wires offer after `inner` rounds, when they are given the words `keys`
one after the other. -/
def encipher (inner : Nat) (keys : Nat → Words) (text : Block) : Block :=
  (saFinal (rounds keys text inner) (keys (inner + 1))).textOut

/-- The composed wires are the rounds of the standard, for any round keys. The induction is
over the rounds. -/
theorem state_rounds (keys : Nat → Words) (text : Block) (j : Nat) :
    (rounds keys text j).state = layers.forward (fun k => (keys k).word)
      (layers.add (keys 0).word (toState text)) j := by
  induction j with
  | zero => exact state_addroundkey_load text (keys 0) default
  | succ j inductionHypothesis =>
    rw [rounds, state_next, inductionHypothesis]
    rfl

/-- The offered text is the cipher of the standard, for any round keys. Nothing is assumed
of the words, so this holds while the schedule is wrong too. -/
theorem encipher_eq (inner : Nat) (keys : Nat → Words) (text : Block) :
    encipher inner keys text =
      ofState (layers.encrypt inner (fun k => (keys k).word) (toState text)) := by
  rw [encipher, text_out_eq, state_final, state_rounds]
  rfl

/-- The round keys that the schedule of the core presents after a load of `key`, as it
computes them. -/
def roundWords (key : Block) (j : Nat) : Words := (KeyExpand.schedule key j).w

/-- With these round keys the wires compute Cipher. This form can be evaluated, unlike the
fields of the standard. -/
theorem encipher_schedule (key text : Block) :
    encipher 9 (roundWords key) text = cipher key text := by
  rw [encipher_eq, cipher]
  exact congrArg ofState (layers.encrypt_congr _ fun j inside =>
    (KeyExpand.scheduled_schedule key inside).1)

section Load
variable (start : Registers) (inputs : Nat → Inputs) {m j : Nat}

/-- The key schedule runs alongside, loaded by `ld`. It takes no other signal of the core
and no reset. -/
theorem state_u0 (n : Nat) :
    (run start inputs n).u0 = KeyExpand.run start.u0 (fun i => ⟨(inputs i).ld, (inputs i).key⟩) n :=
  Clocked.run_map Registers.u0 (fun _ => rfl) n

/-- The words that the schedule shows from clock `m + 1` on, in the order in which a load at
clock `m` consumes them. -/
def keys (m k : Nat) : Words := (run start inputs (m + 1 + k)).u0.w

/-- After a load they are the round keys of its key, for as long as no other load comes. -/
theorem keys_after_load (loaded : (inputs m).ld = true)
    (alone : ∀ i, m < i → i < m + 1 + j → (inputs i).ld = false) :
    keys start inputs m j = roundWords (inputs m).key j := by
  rw [keys, roundWords, state_u0]
  exact congrArg KeyExpand.Registers.w (KeyExpand.run_schedule _ _ loaded alone)

/-- Two clocks after a load the state bytes hold the text with the first words added, and
each further clock without a load is a round with the next words. -/
theorem sa_after_load (loaded : (inputs m).ld = true)
    (alone : ∀ i, m < i → i ≤ m + j → (inputs i).ld = false) :
    (run start inputs (m + 2 + j)).sa =
      rounds (keys start inputs m) (inputs m).textIn j := by
  have fed : Fed saNext (fun n => (inputs n).ld) (fun n => (inputs n).textIn)
      (fun n => (run start inputs n).u0.w) (fun n => (run start inputs n).ldR)
      (fun n => (run start inputs n).textInR) (fun n => (run start inputs n).sa) :=
    ⟨fun _ => rfl, fun _ => rfl, fun _ => rfl⟩
  exact fed.after_load rfl (fun _ => rfl) loaded alone

/-- After a load and `inner` further clocks without one, the text is what the wires make
of it with the words that the schedule showed meanwhile. -/
theorem text_out_of_keys (inner : Nat) (loaded : (inputs m).ld = true)
    (alone : ∀ i, m < i → i ≤ m + inner → (inputs i).ld = false) :
    (run start inputs (m + 3 + inner)).textOut =
      encipher inner (keys start inputs m) (inputs m).textIn := by
  have words : (run start inputs (m + 2 + inner)).u0.w = keys start inputs m (inner + 1) := by
    rw [keys, show m + 1 + (inner + 1) = m + 2 + inner by omega]
  rw [show m + 3 + inner = m + 2 + inner + 1 by omega, run_succ]
  simp only [step, sa_after_load start inputs loaded alone, words, encipher]

/-- Twelve states after a load that no other load follows, `text_out` holds the ciphertext
of what was sampled with it. Resets make no difference, since the data path does not look at
them. -/
theorem text_out_after_load (loaded : (inputs m).ld = true)
    (alone : ∀ i, m < i → i < m + 11 → (inputs i).ld = false) :
    (run start inputs (m + 12)).textOut = cipher (inputs m).key (inputs m).textIn := by
  have text := text_out_of_keys start inputs 9 loaded fun i after before =>
    alone i after (by omega)
  rw [show m + 12 = m + 3 + 9 by omega, text, ← encipher_schedule, encipher_eq, encipher_eq]
  refine congrArg ofState (layers.encrypt_congr _ fun k inside => ?_)
  rw [keys_after_load start inputs loaded fun i after before => alone i after (by omega)]

end Load

end AesCore.CipherTop
