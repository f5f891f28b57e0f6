import AesCore.Sbox
import AesCore.StateRegisters

/-!
# The on-the-fly key schedule

`aes_key_expand_128` holds four words that advance by one round key at every clock
without `kld`; `aes_rcon` supplies the round constant from its own counter, one
clock ahead. Neither is reset and neither stops: after the tenth round key the
words keep changing.

A load sets words, counter and constant together, so the registers before it do
not matter. From then on the two modules stay in step for ten clocks, which is the
whole schedule of the standard.
-/

namespace AesCore.KeyExpand

open ByteField (Byte)
open Fips197
open Sbox (aesSbox)
open StateRegisters (Words)

/-- The registers of `aes_rcon`: the constant that is shown, and the number of the round it
is for. -/
structure Rcon where
  out : Word
  rcnt : BitVec 4
  deriving DecidableEq, Inhabited

/-- Function `frcon` of `aes_rcon`. Its ten constants are written out, and any other index
gives zero. -/
def frcon (i : BitVec 4) : Word :=
  match i with
  | 0x0#4 => 0x01000000#32
  | 0x1#4 => 0x02000000#32
  | 0x2#4 => 0x04000000#32
  | 0x3#4 => 0x08000000#32
  | 0x4#4 => 0x10000000#32
  | 0x5#4 => 0x20000000#32
  | 0x6#4 => 0x40000000#32
  | 0x7#4 => 0x80000000#32
  | 0x8#4 => 0x1b000000#32
  | 0x9#4 => 0x36000000#32
  | _ => 0x00000000#32

/-- One clock of `aes_rcon`. The constant is looked up at the incremented counter, so
constant and counter belong together. -/
def Rcon.step (s : Rcon) (kld : Bool) : Rcon :=
  let rcntNext := s.rcnt + 0x1#4
  { out := if kld then 0x01000000#32 else frcon rcntNext
    rcnt := if kld then 0x0#4 else rcntNext }

/-- The registers of `aes_key_expand_128`, with those of its instance of `aes_rcon`. Neither
module has a reset. -/
structure Registers where
  w : Words
  r0 : Rcon
  deriving DecidableEq, Inhabited

/-- The wires `subword`: the four S-boxes, with the rotation of the word in their wiring. -/
def subword (tmpW : Word) : Word :=
  aesSbox (tmpW.extractLsb 23 16) ++ aesSbox (tmpW.extractLsb 15 8) ++
    aesSbox (tmpW.extractLsb 7 0) ++ aesSbox (tmpW.extractLsb 31 24)

/-- One clock of `aes_key_expand_128`. All four words are computed from the old ones, so
each of them is a sum of those before it, written out. -/
def step (s : Registers) (kld : Bool) (key : Block) : Registers :=
  let sub := subword s.w.w3
  let rcon := s.r0.out
  { w := {
      w0 := if kld then key.extractLsb 127 96 else s.w.w0 ^^^ sub ^^^ rcon
      w1 := if kld then key.extractLsb 95 64 else s.w.w0 ^^^ s.w.w1 ^^^ sub ^^^ rcon
      w2 := if kld then key.extractLsb 63 32 else s.w.w0 ^^^ s.w.w2 ^^^ s.w.w1 ^^^ sub ^^^ rcon
      w3 := if kld then key.extractLsb 31 0
        else s.w.w0 ^^^ s.w.w3 ^^^ s.w.w2 ^^^ s.w.w1 ^^^ sub ^^^ rcon }
    r0 := s.r0.step kld }

/-- The wires `subword` substitute and rotate as the schedule does. The order of the two
does not matter, since the substitution acts on each byte. -/
theorem subword_eq (word : Word) : subword word = subWord (rotWord word) := by
  simp only [subWord, word_byte_rot_word, subword, Sbox.aes_sbox_eq]
  rfl

/-- The constants of the case statement are those of the standard, one index lower. The
standard numbers its rounds from one. -/
theorem frcon_eq : ∀ j, j < 10 → frcon (BitVec.ofNat 4 j) = rcon (j + 1) := by decide +kernel

/-- The registers hold round key `j` of `key`, and the constant for the round after it. This
is the invariant that each clock without a load carries on. -/
def Scheduled (key : Block) (j : Nat) (s : Registers) : Prop :=
  s.w.word = roundKey key j ∧ s.r0.rcnt = BitVec.ofNat 4 j ∧ s.r0.out = frcon (BitVec.ofNat 4 j)

/-- The recurrence for the first word of a round, which takes the last word of the round
before, rotated and substituted, and the constant. -/
theorem round_key_first (key : Block) (j : Nat) :
    roundKey key (j + 1) 0 =
      roundKey key j 0 ^^^ (subWord (rotWord (roundKey key j 3)) ^^^ rcon (j + 1)) := by
  have index : (4 * j + 4) % 4 = 0 := by omega
  have number : (4 * j + 4) / 4 = j + 1 := by omega
  change keyExpansion key (4 * j + 4) = _
  rw [keyExpansion, if_pos index, number]
  rfl

/-- The recurrence for the other three words of a round, each the sum of the word before it
and the one a round earlier. -/
theorem round_key_later (key : Block) (j : Nat) :
    roundKey key (j + 1) 1 = roundKey key j 1 ^^^ roundKey key (j + 1) 0 ∧
      roundKey key (j + 1) 2 = roundKey key j 2 ^^^ roundKey key (j + 1) 1 ∧
      roundKey key (j + 1) 3 = roundKey key j 3 ^^^ roundKey key (j + 1) 2 := by
  have recurrence (c : Nat) (later : (4 * j + c + 4) % 4 ≠ 0) :
      keyExpansion key (4 * j + c + 4) =
        keyExpansion key (4 * j + c) ^^^ keyExpansion key (4 * j + c + 3) := by
    rw [keyExpansion, if_neg later]
  exact ⟨recurrence 1 (by omega), recurrence 2 (by omega), recurrence 3 (by omega)⟩

/-- A load starts the schedule, whatever the registers held: round key zero is the key. -/
theorem step_load (s : Registers) (key : Block) : Scheduled key 0 (step s true key) := by
  refine ⟨?_, rfl, rfl⟩
  funext c
  match c with
  | 0 | 1 | 2 | 3 => rfl

/-- Each of the next ten clocks without a load advances it by one round key. The
unrolled sums of the wiring are the recurrence with the earlier words of the new
round substituted. -/
theorem step_advance {key : Block} {j : Nat} {s : Registers} (scheduled : Scheduled key j s)
    (bounded : j < 10) (other : Block) : Scheduled key (j + 1) (step s false other) := by
  obtain ⟨words, counter, constant⟩ := scheduled
  have constants : s.r0.out = rcon (j + 1) := constant.trans (frcon_eq j bounded)
  have counted : s.r0.rcnt + 0x1#4 = BitVec.ofNat 4 (j + 1) := by
    rw [counter]
    exact (BitVec.ofNat_add j 1).symm
  obtain ⟨second, third, fourth⟩ := round_key_later key j
  have first := round_key_first key j
  have word (c : Fin 4) : s.w.word c = roundKey key j c := congrFun words c
  refine ⟨?_, counted, congrArg frcon counted⟩
  funext c
  match c with
  | 0 =>
    change s.w.word 0 ^^^ subword (s.w.word 3) ^^^ s.r0.out = _
    rw [first, subword_eq, word, word, constants, BitVec.xor_assoc]
  | 1 =>
    change s.w.word 0 ^^^ s.w.word 1 ^^^ subword (s.w.word 3) ^^^ s.r0.out = _
    rw [second, first, subword_eq, word, word, word, constants]
    ac_rfl
  | 2 =>
    change s.w.word 0 ^^^ s.w.word 2 ^^^ s.w.word 1 ^^^ subword (s.w.word 3) ^^^ s.r0.out = _
    rw [third, second, first, subword_eq, word, word, word, word, constants]
    ac_rfl
  | 3 =>
    change s.w.word 0 ^^^ s.w.word 3 ^^^ s.w.word 2 ^^^ s.w.word 1 ^^^ subword (s.w.word 3) ^^^
      s.r0.out = _
    rw [fourth, third, second, first, subword_eq, word, word, word, word, constants]
    ac_rfl

/-- The registers after a load of `key` and `j` clocks without one. This is the schedule as
the hardware computes it, and it can be evaluated. -/
def schedule (key : Block) : Nat → Registers
  | 0 => step default true key
  | j + 1 => step (schedule key j) false 0#128

/-- A load forgets what the registers held, since all of them are loaded. -/
theorem step_forgets (s : Registers) (key : Block) : step s true key = schedule key 0 := by
  simp only [schedule, step, Rcon.step, ↓reduceIte]

/-- A clock without a load does not look at the key, so what the key input carries then is
of no importance. -/
theorem step_schedule (key other : Block) (j : Nat) :
    step (schedule key j) false other = schedule key (j + 1) := by
  simp only [schedule, step, Bool.false_eq_true, ↓reduceIte]

/-- The hardware computes the schedule of the standard, round key by round key, up to the
tenth. The induction is over the clocks. -/
theorem scheduled_schedule (key : Block) {j : Nat} (bounded : j ≤ 10) :
    Scheduled key j (schedule key j) := by
  induction j with
  | zero => exact step_load default key
  | succ j inductionHypothesis =>
    exact step_advance (inductionHypothesis (by omega)) (by omega) 0#128

end AesCore.KeyExpand
