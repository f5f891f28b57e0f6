import AesCore.RijndaelKeys

/-!
# The word-oriented cipher

`AES_encrypt` and `AES_decrypt` do two rounds in each pass of a loop, from the variables
`s0` to `s3` to `t0` to `t3` and back, and leave it after the first round of the last pass.

Neither fails on a key that was set: every lookup stays inside its table and every round
key inside the schedule. All of the input is read before the first word is put out, so the
buffers may overlap, and only the sixteen bytes of the output change.
-/

namespace AesCore.Rijndael

open ByteField (Byte)
open Fips197
open Fallible (Returns returns_some)

/-- The loop with `r` passes left and `rk` as an index into the schedule: the variables `t0`
to `t3` and `rk` at its end. A counter that is zero already never meets the test for zero
before the schedule is left. -/
def rounds (round : Schedule → Nat → Words → Option Words) (key : Schedule) :
    Nat → Words → Nat → Option (Words × Nat)
  | 0, _, _ => none
  | r + 1, s, rk => do
    let t ← round key (rk + 4) s
    let rk := rk + 8
    if r = 0 then return (t, rk)
    else
      let s ← round key rk t
      rounds round key r s rk

/-- One block, from `in` to `out`: the first round key, the loop, and the last round with
the round key at which the loop has stopped. -/
def crypt (round last : Schedule → Nat → Words → Option Words) (mem : Memory) (input output : Nat)
    (key : AesKey) : Option Memory := do
  let s ← addFirst mem input key.rdKey
  let (t, rk) ← rounds round key.rdKey (key.rounds >>> 1) s 0
  let s ← last key.rdKey rk t
  return putWords mem output s

/-- Function `AES_encrypt`: the buffers it leaves. The source prints its buffers as strings,
and `key->rounds`, before it tests the pointers, which is left out here: with a null key the
source already fails there, and what stands here is the effect of the test alone. -/
def aesEncrypt (mem : Memory) (input output : Option Nat) (key : Option AesKey) : Option Memory :=
  match input, output, key with
  | some input, some output, some key => crypt encryptRound encryptLast mem input output key
  | _, _, _ => some mem

/-- Function `AES_decrypt`: the buffers it leaves. It has no such prints, so a null pointer
leaves the buffers as they are. -/
def aesDecrypt (mem : Memory) (input output : Option Nat) (key : Option AesKey) : Option Memory :=
  match input, output, key with
  | some input, some output, some key => crypt decryptRound decryptLast mem input output key
  | _, _, _ => some mem

section Rounds
variable {round last : Schedule → Nat → Words → Option Words} {rk : Schedule}
  {keys : Nat → Fin 4 → Word} {cipher : KeyAlternating.Layers (Fin 4 → Word) State}

/-- A function on the variables does a full round of a cipher: it succeeds, and the
variables show the next state. -/
def DoesRound (round : Schedule → Nat → Words → Option Words)
    (cipher : KeyAlternating.Layers (Fin 4 → Word) State) : Prop :=
  ∀ (rk : Schedule) (i : Nat) (s : Words) (state : State) (key : Fin 4 → Word), Shows s state →
    Holds rk i key → Returns (round rk i s)
      fun t => Shows t (cipher.add key (cipher.mix (cipher.sub state)))

/-- A function on the variables does the last round of a cipher. -/
def DoesLast (last : Schedule → Nat → Words → Option Words)
    (cipher : KeyAlternating.Layers (Fin 4 → Word) State) : Prop :=
  ∀ (rk : Schedule) (i : Nat) (s : Words) (state : State) (key : Fin 4 → Word), Shows s state →
    Holds rk i key → Returns (last rk i s) fun t => Shows t (cipher.add key (cipher.sub state))

/-- A full round takes the state of one number of rounds to that of the next, with the round
key that the index points at. -/
theorem round_forward (does : DoesRound round cipher) {total n i : Nat}
    (keyed : Keyed total keys rk) (inside : n + 1 ≤ total) (place : i = 4 * (n + 1))
    {start : State} {s : Words} (shown : Shows s (cipher.forward keys start n)) :
    Returns (round rk i s) fun t => Shows t (cipher.forward keys start (n + 1)) := by
  subst place
  exact does rk _ s _ _ shown (keyed (n + 1) inside)

/-- The loop does an odd number of full rounds: two in each pass but the last. Proof:
induction on the passes that are left, with the number of those done as a parameter. -/
theorem rounds_show (does : DoesRound round cipher) {total : Nat} (keyed : Keyed total keys rk)
    {start : State} (left done : Nat) {s : Words} (inside : 2 * (done + left) + 1 ≤ total)
    (shown : Shows s (cipher.forward keys start (2 * done))) :
    Returns (rounds round rk (left + 1) s (8 * done)) fun after =>
      Shows after.1 (cipher.forward keys start (2 * (done + left) + 1)) ∧
        after.2 = 4 * (2 * (done + left) + 2) := by
  induction left generalizing done s with
  | zero =>
    rw [rounds]
    refine (round_forward does keyed (by omega) (by omega) shown).bind fun t shown => ?_
    exact returns_some ⟨shown, by omega⟩
  | succ left inductionHypothesis =>
    rw [rounds]
    refine (round_forward does keyed (by omega) (by omega) shown).bind fun t shown => ?_
    rw [if_neg (Nat.succ_ne_zero left)]
    refine (round_forward does keyed (by omega) (by omega) shown).bind fun s shown => ?_
    have total : done + (left + 1) = done + 1 + left := by omega
    rw [total] at inside ⊢
    exact inductionHypothesis (done + 1) inside shown

/-- A key with an even number of rounds takes a block through a cipher whose round keys it
holds. The first round key is added as in the standard. -/
theorem crypt_returns (does : DoesRound round cipher) (finishes : DoesLast last cipher)
    (adds : cipher.add = layers.add) {key : AesKey} {inner left : Nat}
    (odd : inner = 2 * left + 1) (number : key.rounds = inner + 1)
    (keyed : Keyed (inner + 1) keys key.rdKey) (mem : Memory) (input output : Nat) :
    Returns (crypt round last mem input output key) fun after =>
      blockAt after output = ofState (cipher.encrypt inner keys (toState (blockAt mem input))) ∧
        ∀ a, a < output ∨ output + 16 ≤ a → after a = mem a := by
  subst odd
  have half : key.rounds >>> 1 = left + 1 := by
    rw [Nat.shiftRight_eq_div_pow]
    omega
  have first := add_first_shows mem input (keyed 0 (Nat.zero_le _))
  rw [← adds] at first
  rw [crypt, half]
  refine first.bind fun s shown => ?_
  have loop := rounds_show does keyed left 0 (by omega) shown
  refine loop.bind fun after reached => ?_
  obtain ⟨shown, place⟩ := reached
  rw [Nat.zero_add] at shown place
  have held : Holds key.rdKey after.2 (keys (2 * left + 1 + 1)) := place ▸ keyed _ (Nat.le_refl _)
  refine (finishes key.rdKey after.2 after.1 _ _ shown held).bind fun result shown => ?_
  exact returns_some (put_words_eq mem output shown)

end Rounds

/-- The round keys of the inverse cipher give its equivalent form, which is a cipher with
inverse layers in the order of the cipher. -/
theorem decrypt_eq_encrypt (inner : Nat) (keys : Nat → Fin 4 → Word) (state : State) :
    layers.decrypt inner (fun slot => keys (inner + 1 - slot)) state =
      layers.inverse.encrypt inner (inverseKeys (inner + 1) keys) state := by
  refine layers.decrypt_eq_encrypt unmix_add ?_ ?_ ?_ state
  · rw [inverseKeys, unmixedKeys, if_neg (by omega)]
  · intro slot one within
    rw [inverseKeys, unmixedKeys, if_pos (by omega)]
  · rw [inverseKeys, unmixedKeys, if_neg (by omega)]

/-- The rounds of `AES_encrypt` are those of the cipher. -/
theorem encrypt_does : DoesRound encryptRound layers ∧ DoesLast encryptLast layers :=
  ⟨fun _ _ _ _ _ shown held => encrypt_round_shows shown held,
    fun _ _ _ _ _ shown held => encrypt_last_shows shown held⟩

/-- The rounds of `AES_decrypt` are those of the inverse cipher. -/
theorem decrypt_does :
    DoesRound decryptRound layers.inverse ∧ DoesLast decryptLast layers.inverse :=
  ⟨fun _ _ _ _ _ shown held => decrypt_round_shows shown held,
    fun _ _ _ _ _ shown held => decrypt_last_shows shown held⟩

/-- Lengths that are accepted belong to an odd number of full rounds, so the loop may stop
after the first half of a pass. -/
theorem full_rounds_odd {bits : Int} {nk : Nat}
    (length : (bits, nk) ∈ [((128 : Int), 4), (192, 6), (256, 8)]) :
    ∃ left, nk + 5 = 2 * left + 1 := by
  have cases := length_cases length
  exact ⟨(nk + 4) / 2, by omega⟩

section Exact
variable (mem : Memory) (userKey : Nat) (bits : Int) (key : AesKey)

/-- A key that `AES_set_encrypt_key` accepts enciphers every block by the standard, also in
place or into a buffer that overlaps the input, and writes nothing else. Any other length is
refused and leaves the key as it was. -/
theorem set_encrypt_key_exact :
    (∀ nk, (bits, nk) ∈ [((128 : Int), 4), (192, 6), (256, 8)] →
      ∃ set, aesSetEncryptKey mem (some userKey) bits (some key) = some (0, some set) ∧
        ∀ (buffers : Memory) (input output : Nat), ∃ after,
          aesEncrypt buffers (some input) (some output) (some set) = some after ∧
            blockAt after output =
              cipherOf (keyWords mem userKey nk) (blockAt buffers input) ∧
            ∀ a, a < output ∨ output + 16 ≤ a → after a = buffers a) ∧
      (bits ∉ [(128 : Int), 192, 256] →
        aesSetEncryptKey mem (some userKey) bits (some key) = some (-2, some key)) := by
  refine ⟨fun nk length => ?_, set_encrypt_key_refuses mem userKey key⟩
  obtain ⟨left, odd⟩ := full_rounds_odd length
  obtain ⟨set, same, number, keyed⟩ := set_encrypt_key_returns mem userKey key length
  refine ⟨set, same, fun buffers input output => ?_⟩
  rw [cipherOf, key_words_length]
  exact crypt_returns encrypt_does.1 encrypt_does.2 rfl odd number keyed buffers input output

/-- A key of 192 bits, a buffer that overlaps the input, and a refused length. -/
theorem set_encrypt_key_exact_example :
    let mem : Memory := fun a => BitVec.ofNat 8 a
    let key : AesKey := ⟨Vector.replicate 60 0#64, 0⟩
    (∃ set, aesSetEncryptKey mem (some 0) 192 (some key) = some (0, some set) ∧ ∃ after,
      aesEncrypt mem (some 32) (some 36) (some set) = some after ∧
        blockAt after 36 = cipherOf (keyWords mem 0 6) (blockAt mem 32) ∧
        ∀ a, a < 36 ∨ 52 ≤ a → after a = mem a) ∧
      aesSetEncryptKey mem (some 0) 0 (some key) = some (-2, some key) := by
  intro mem key
  obtain ⟨set, same, blocks⟩ := (set_encrypt_key_exact mem 0 192 key).1 6 (by decide)
  exact ⟨⟨set, same, blocks mem 32 36⟩, (set_encrypt_key_exact mem 0 0 key).2 (by decide)⟩

/-- A key that `AES_set_decrypt_key` accepts deciphers every block by the standard, with the
same freedom for the buffers. Any other length is refused and leaves the key as it was. -/
theorem set_decrypt_key_exact :
    (∀ nk, (bits, nk) ∈ [((128 : Int), 4), (192, 6), (256, 8)] →
      ∃ set, aesSetDecryptKey mem (some userKey) bits (some key) = some (0, some set) ∧
        ∀ (buffers : Memory) (input output : Nat), ∃ after,
          aesDecrypt buffers (some input) (some output) (some set) = some after ∧
            blockAt after output =
              invCipherOf (keyWords mem userKey nk) (blockAt buffers input) ∧
            ∀ a, a < output ∨ output + 16 ≤ a → after a = buffers a) ∧
      (bits ∉ [(128 : Int), 192, 256] →
        aesSetDecryptKey mem (some userKey) bits (some key) = some (-2, some key)) := by
  refine ⟨fun nk length => ?_, set_decrypt_key_refuses mem userKey key⟩
  obtain ⟨left, odd⟩ := full_rounds_odd length
  obtain ⟨set, same, number, keyed⟩ := set_decrypt_key_returns mem userKey key length
  refine ⟨set, same, fun buffers input output => ?_⟩
  have equivalent := decrypt_eq_encrypt (nk + 5) (roundKeyOf (keyWords mem userKey nk))
    (toState (blockAt buffers input))
  rw [invCipherOf, key_words_length, equivalent]
  exact crypt_returns decrypt_does.1 decrypt_does.2 rfl odd number keyed buffers input output

/-- A key of 192 bits, a buffer that overlaps the input, and a refused length. -/
theorem set_decrypt_key_exact_example :
    let mem : Memory := fun a => BitVec.ofNat 8 a
    let key : AesKey := ⟨Vector.replicate 60 0#64, 0⟩
    (∃ set, aesSetDecryptKey mem (some 0) 192 (some key) = some (0, some set) ∧ ∃ after,
      aesDecrypt mem (some 32) (some 36) (some set) = some after ∧
        blockAt after 36 = invCipherOf (keyWords mem 0 6) (blockAt mem 32) ∧
        ∀ a, a < 36 ∨ 52 ≤ a → after a = mem a) ∧
      aesSetDecryptKey mem (some 0) 0 (some key) = some (-2, some key) := by
  intro mem key
  obtain ⟨set, same, blocks⟩ := (set_decrypt_key_exact mem 0 192 key).1 6 (by decide)
  exact ⟨⟨set, same, blocks mem 32 36⟩, (set_decrypt_key_exact mem 0 0 key).2 (by decide)⟩

end Exact

end AesCore.Rijndael
