import AesCore.ByteRounds

/-!
# The byte-oriented cipher with a key schedule

`aes_set_key` computes all round keys of the library `aes-byte-29-08-08` beforehand and
leaves them in a context, from which `aes_encrypt` and `aes_decrypt` take them.

A key length is one byte, in which 256 bits do not fit: such a key must be announced as
32 bytes. A length that is refused leaves a context in which nothing can be enciphered.

As for the rounds, `unsigned long` has 32 bits.
-/

namespace AesCore.ByteCipher

open ByteField (Byte xPower)
open Fips197

variable {n : Nat}

/-- A context: the key schedule and the number of rounds. The array has room for the longest
schedule, and zero rounds mean that no key is set. -/
structure Context where
  ksch : Vector Byte 240
  rnd : Byte
  deriving DecidableEq

/-- What the bodies of the loop of `aes_set_key` change: the schedule in the context and the
constant `rc`. -/
structure KeyLoop where
  ksch : Vector Byte 240
  rc : Byte

/-- The `switch` of `aes_set_key`: the length in bytes. The case for 256 is there in the
source, but a length is one byte and never has this value. -/
def keyBytes (keylen : Byte) : Option Nat :=
  match keylen.toNat with
  | 16 | 128 => some 16
  | 24 | 192 => some 24
  | 32 | 256 => some 32
  | _ => none

/-- The body of the loop of `aes_set_key`. The word before is rotated, substituted and given
the constant at the start of a group, or substituted in the middle of a group of a long key;
then it is added to the word one group earlier. -/
def keyBody (keylen cc : Nat) (s : KeyLoop) : KeyLoop :=
  let t0 := byte s.ksch (cc - 4)
  let t1 := byte s.ksch (cc - 3)
  let t2 := byte s.ksch (cc - 2)
  let t3 := byte s.ksch (cc - 1)
  let (t0, t1, t2, t3, rc) :=
    if cc % keylen = 0 then
      (sBox t1 ^^^ s.rc, sBox t2, sBox t3, sBox t0, stored (f2 s.rc.toNat))
    else if keylen > 24 ∧ cc % keylen = 16 then (sBox t0, sBox t1, sBox t2, sBox t3, s.rc)
    else (t0, t1, t2, t3, s.rc)
  let tt := cc - keylen
  { ksch := put s.ksch cc (byte s.ksch (tt + 0) ^^^ t0) (byte s.ksch (tt + 1) ^^^ t1)
      (byte s.ksch (tt + 2) ^^^ t2) (byte s.ksch (tt + 3) ^^^ t3)
    rc }

/-- The variables before iteration `j + 1`, where `cc` is `keylen + 4 * j`. -/
def keyLoop (keylen : Nat) (start : KeyLoop) : Nat → KeyLoop
  | 0 => start
  | j + 1 => keyBody keylen (keylen + 4 * j) (keyLoop keylen start j)

/-- Function `aes_set_key`: the code it returns and the context it leaves. A refused length
only clears the number of rounds, and the schedule keeps its bytes. The code is kept as a
byte: minus one is 255. -/
def aesSetKey (key : Vector Byte n) (keylen : Byte) (ctx : Context) : Byte × Context :=
  match keyBytes keylen with
  | none => (stored 255, { ctx with rnd := 0#8 })
  | some keylen =>
    let ksch := Vector.ofFn fun i : Fin 240 =>
      if i.val < keylen then byte key i.val else byte ctx.ksch i.val
    let hi := stored ((keylen + 28) <<< 2)
    let rnd := stored ((hi.toNat >>> 4) - 1)
    let s := keyLoop keylen ⟨ksch, 1#8⟩ ((hi.toNat - keylen) / 4)
    (0#8, ⟨s.ksch, rnd⟩)

/-- The array `s1` after the rounds up to `r` of `aes_encrypt`, each with the next sixteen
bytes of the schedule. -/
def cipherRounds (ksch : Vector Byte 240) (start : ByteBlock) : Nat → ByteBlock
  | 0 => start
  | r + 1 => addRoundKey (mixSubColumns (cipherRounds ksch start r)) (chunk ksch (r + 1))

/-- Function `aes_encrypt`: the block it puts out, or the code it returns without one. The
input is read before the output is written, so both may be one array. -/
def aesEncrypt (input : ByteBlock) (ctx : Context) : Except Byte ByteBlock :=
  if ctx.rnd ≠ 0#8 then
    let s1 := copyAndKey input (chunk ctx.ksch 0)
    let s1 := cipherRounds ctx.ksch s1 (ctx.rnd.toNat - 1)
    let s1 := shiftSubRows s1
    .ok (copyAndKey s1 (chunk ctx.ksch ctx.rnd.toNat))
  else
    .error (stored 255)

/-- The array `s1` after `j` rounds of `aes_decrypt`, from `rnd - 1` downwards. The counter
is decremented before it is tested, so the loop does not run for a single round. -/
def decipherRounds (ksch : Vector Byte 240) (rnd : Nat) (start : ByteBlock) : Nat → ByteBlock
  | 0 => start
  | j + 1 =>
    invMixSubColumns (addRoundKey (decipherRounds ksch rnd start j) (chunk ksch (rnd - (j + 1))))

/-- Function `aes_decrypt`: the block it puts out, or the code it returns without one. It
starts from the last round key and ends with the first. -/
def aesDecrypt (input : ByteBlock) (ctx : Context) : Except Byte ByteBlock :=
  if ctx.rnd ≠ 0#8 then
    let s1 := copyAndKey input (chunk ctx.ksch ctx.rnd.toNat)
    let s1 := invShiftSubRows s1
    let s1 := decipherRounds ctx.ksch ctx.rnd.toNat s1 (ctx.rnd.toNat - 1)
    .ok (copyAndKey s1 (chunk ctx.ksch 0))
  else
    .error (stored 255)

/-!
## The key schedule
-/

/-- The body of the loop writes the next word of the schedule, the sum of the word one group
earlier and `temp`, and leaves all others alone. Proof: by the three cases of `temp`, each
of them a computation on four bytes. -/
theorem key_body_words {nk j : Nat} {s : KeyLoop} (nonempty : 0 < nk) (inside : nk + j < 60)
    (constant : j % nk = 0 → s.rc = xPower (j / nk)) {i : Nat} (bounded : i < 60) :
    word (keyBody (4 * nk) (4 * nk + 4 * j) s).ksch i =
      if i = nk + j then
        word s.ksch j ^^^ scheduleTemp nk (j / nk + 1) (j % nk) (word s.ksch (j + nk - 1))
      else word s.ksch i := by
  have position : 4 * nk + 4 * j = 4 * (nk + j) := by omega
  have remainder : 4 * (nk + j) % (4 * nk) = 4 * (j % nk) := by
    rw [Nat.mul_mod_mul_left, Nat.add_mod_left]
  have written (t0 t1 t2 t3 : Byte) :
      word (put s.ksch (4 * (nk + j)) (byte s.ksch (4 * j + 0) ^^^ t0)
        (byte s.ksch (4 * j + 1) ^^^ t1) (byte s.ksch (4 * j + 2) ^^^ t2)
        (byte s.ksch (4 * j + 3) ^^^ t3)) i =
          if i = nk + j then word s.ksch j ^^^ ofBytes t0 t1 t2 t3 else word s.ksch i := by
    rw [word_put _ _ _ _ _ (by omega), of_bytes_xor]
    rfl
  have t0 : 4 * (nk + j) - 4 = 4 * (j + nk - 1) := by omega
  have t1 : 4 * (nk + j) - 3 = 4 * (j + nk - 1) + 1 := by omega
  have t2 : 4 * (nk + j) - 2 = 4 * (j + nk - 1) + 2 := by omega
  have t3 : 4 * (nk + j) - 1 = 4 * (j + nk - 1) + 3 := by omega
  have tt : 4 * (nk + j) - 4 * nk = 4 * j := by omega
  have last : word s.ksch (j + nk - 1) = ofBytes (byte s.ksch (4 * (j + nk - 1)))
      (byte s.ksch (4 * (j + nk - 1) + 1)) (byte s.ksch (4 * (j + nk - 1) + 2))
      (byte s.ksch (4 * (j + nk - 1) + 3)) := rfl
  rw [keyBody, position, remainder, t0, t1, t2, t3, tt, scheduleTemp, last]
  by_cases start : j % nk = 0
  · have zero : 4 * (j % nk) = 0 := by omega
    rw [if_pos zero, if_pos start, constant start, rot_word_of_bytes, sub_word_of_bytes, rcon,
      Nat.add_sub_cancel, ← of_bytes_constant]
    exact written _ _ _ _
  · have positive : ¬4 * (j % nk) = 0 := by omega
    rw [if_neg positive, if_neg start]
    by_cases fifth : 6 < nk ∧ j % nk = 4
    · have long : 4 * nk > 24 ∧ 4 * (j % nk) = 16 := by omega
      rw [if_pos fifth, if_pos long, sub_word_of_bytes]
      exact written _ _ _ _
    · have short : ¬(4 * nk > 24 ∧ 4 * (j % nk) = 16) := by omega
      rw [if_neg fifth, if_neg short]
      exact written _ _ _ _

/-- The body of the loop computes a constant after it has used one, which happens at the
start of a group only. -/
theorem key_body_rc (nk j : Nat) (s : KeyLoop) :
    (keyBody (4 * nk) (4 * nk + 4 * j) s).rc =
      if j % nk = 0 then ByteField.xtime s.rc else s.rc := by
  have remainder : (4 * nk + 4 * j) % (4 * nk) = 4 * (j % nk) := by
    rw [← Nat.mul_add, Nat.mul_mod_mul_left, Nat.add_mod_left]
  rw [keyBody, remainder]
  by_cases start : j % nk = 0
  · have zero : 4 * (j % nk) = 0 := by omega
    rw [if_pos zero, if_pos start, ← next_rc]
  · have positive : ¬4 * (j % nk) = 0 := by omega
    rw [if_neg positive, if_neg start]
    by_cases fifth : 4 * nk > 24 ∧ 4 * (j % nk) = 16
    · rw [if_pos fifth]
    · rw [if_neg fifth]

/-- After `j` iterations `j` more words of the schedule are in place, and the constant for
the next group is ready. The constants used so far are one for each group begun. -/
structure Expanded (key : List Word) (j : Nat) (s : KeyLoop) : Prop where
  words : ∀ i, i < key.length + j → word s.ksch i = keySchedule key i
  rc : s.rc = xPower ((j + key.length - 1) / key.length)

/-- Every iteration adds a word: what the body writes is what the recursion of the schedule
asks for at this index. -/
theorem key_body_expanded {key : List Word} {j : Nat} {s : KeyLoop} (nonempty : 0 < key.length)
    (inside : key.length + j < 60) (expanded : Expanded key j s) :
    Expanded key (j + 1) (keyBody (4 * key.length) (4 * key.length + 4 * j) s) := by
  have successor : j + key.length - 1 + 1 = j + key.length := by omega
  have following : j + 1 + key.length - 1 = j + key.length - 1 + 1 := by omega
  have whole (start : j % key.length = 0) : (j + key.length - 1 + 1) / key.length =
      (j + key.length - 1) / key.length + 1 := by
    apply Nat.succ_div_of_mod_eq_zero
    rw [successor, Nat.add_mod_right, start]
  constructor
  · intro i bounded
    have constant (start : j % key.length = 0) : s.rc = xPower (j / key.length) := by
      have group := whole start
      rw [successor, Nat.add_div_right j nonempty] at group
      rw [expanded.rc, Nat.succ.inj group]
    rw [key_body_words nonempty inside constant (by omega)]
    by_cases new : i = key.length + j
    · have next := key_schedule_later key j nonempty
      rw [if_pos new, expanded.words j (by omega), expanded.words (j + key.length - 1) (by omega),
        ← next, new, Nat.add_comm]
    · rw [if_neg new]
      exact expanded.words i (by omega)
  · rw [key_body_rc, expanded.rc, following]
    by_cases start : j % key.length = 0
    · rw [if_pos start, whole start]
      rfl
    · rw [if_neg start, Nat.succ_div_of_mod_ne_zero]
      rw [successor, Nat.add_mod_right]
      exact start

/-- All iterations, by induction, as long as the array has room for the words. -/
theorem key_loop_expanded {key : List Word} {keylen j : Nat} {start : KeyLoop}
    (bytes : keylen = 4 * key.length) (nonempty : 0 < key.length)
    (expanded : Expanded key 0 start) (inside : key.length + j ≤ 60) :
    Expanded key j (keyLoop keylen start j) := by
  subst bytes
  induction j with
  | zero => exact expanded
  | succ j inductionHypothesis =>
    exact key_body_expanded nonempty (by omega) (inductionHypothesis (by omega))

/-- The lengths that are accepted are 16, 24 and 32 bytes, however they are announced. -/
theorem key_bytes_some {keylen : Byte} (selected : keyBytes keylen = some n) :
    n = 16 ∨ n = 24 ∨ n = 32 := by
  revert selected
  rw [keyBytes]
  split <;> simp +contextual [eq_comm]

/-- A key that is copied in front of an array starts the schedule, with the constant one for
the first group. -/
theorem copied_expanded {key : Vector Byte n} {ksch : Vector Byte 240}
    (copied : ∀ i, i < 4 * (keyWords key).length → byte ksch i = byte key i)
    (nonempty : 0 < (keyWords key).length) : Expanded (keyWords key) 0 ⟨ksch, 1#8⟩ := by
  constructor
  · intro i inside
    rw [key_schedule_key_words key (by omega), word, copied _ (by omega), copied _ (by omega),
      copied _ (by omega), copied _ (by omega)]
    rfl
  · have none : (0 + (keyWords key).length - 1) / (keyWords key).length = 0 :=
      Nat.div_eq_of_lt (by omega)
    rw [none]
    rfl

/-- After a key of an accepted length the context holds its schedule and its number of
rounds. The loop ends with the last word that the rounds use. -/
theorem set_key_words (key : Vector Byte n) {keylen : Byte} (selected : keyBytes keylen = some n)
    (ctx : Context) :
    (aesSetKey key keylen ctx).1 = 0#8 ∧
      (aesSetKey key keylen ctx).2.rnd.toNat = (keyWords key).length + 6 ∧
      ∀ i, i < 4 * (keyWords key).length + 28 →
        word (aesSetKey key keylen ctx).2.ksch i = keySchedule (keyWords key) i := by
  have sizes : n = 4 * (keyWords key).length ∧ 4 * (keyWords key).length + 28 ≤ 60 ∧
      0 < (keyWords key).length ∧
      (stored ((n + 28) <<< 2)).toNat = 16 * (keyWords key).length + 112 ∧
      (stored (((stored ((n + 28) <<< 2)).toNat >>> 4) - 1)).toNat = (keyWords key).length + 6 := by
    rw [keyWords, List.length_map, List.length_range]
    obtain rfl | rfl | rfl := key_bytes_some selected <;> decide
  obtain ⟨bytes, bounded, nonempty, hi, rounds⟩ := sizes
  have iterations : (16 * (keyWords key).length + 112 - n) / 4 =
      3 * (keyWords key).length + 28 := by
    omega
  rw [aesSetKey, selected]
  refine ⟨rfl, rounds, ?_⟩
  intro i inside
  have copied (i : Nat) (within : i < 4 * (keyWords key).length) :
      byte (Vector.ofFn fun i : Fin 240 =>
        if i.val < n then byte key i.val else byte ctx.ksch i.val) i = byte key i := by
    have inKey : i < n := by omega
    rw [byte_of (by omega), Vector.getElem_ofFn]
    exact if_pos inKey
  have expanded := key_loop_expanded bytes nonempty (copied_expanded copied nonempty)
    (j := 3 * (keyWords key).length + 28) (by omega)
  rw [← iterations, ← hi] at expanded
  exact expanded.words i (by omega)

/-!
## Whole blocks
-/

/-- The round keys of a context, by number. Any context has them, whether a key was set or
not. -/
def Context.keys (ctx : Context) (r : Nat) : Fin 4 → Word := words (chunk ctx.ksch r)

/-- The rounds of an encryption are the full rounds of the standard with the round keys of
the context, by induction. -/
theorem view_cipher_rounds (ctx : Context) (start : ByteBlock) (r : Nat) :
    view (cipherRounds ctx.ksch start r) = layers.forward ctx.keys (view start) r := by
  induction r with
  | zero => rfl
  | succ r inductionHypothesis =>
    rw [cipherRounds, view_add, view_mix_sub, inductionHypothesis]
    rfl

/-- The rounds of a decryption. The inverse substitution of a round has been done at the end
of the round before it, so the states differ by this layer from those of the standard. -/
theorem view_decipher_rounds (ctx : Context) (start : ByteBlock) (text : State) (rnd j : Nat)
    (started : view start = layers.unsub text) :
    view (decipherRounds ctx.ksch rnd start j) =
      layers.unsub (layers.backward (fun slot => ctx.keys (rnd - slot)) text j) := by
  induction j with
  | zero => exact started
  | succ j inductionHypothesis =>
    rw [decipherRounds, view_inv_mix_sub, view_add, inductionHypothesis]
    rfl

/-- The last round of a context follows the others, so its number has a predecessor. -/
theorem rounds_pred {ctx : Context} (keyed : ctx.rnd ≠ 0#8) :
    ctx.rnd.toNat - 1 + 1 = ctx.rnd.toNat := by
  have positive : ctx.rnd.toNat ≠ 0 := fun zero => keyed (BitVec.eq_of_toNat_eq zero)
  omega

/-- A context with rounds enciphers with its round keys. This needs no key that was set.
With more than fourteen rounds the source would read behind the schedule, so what is said
about calls excludes them. -/
theorem encrypt_keyed {ctx : Context} (keyed : ctx.rnd ≠ 0#8) (text : ByteBlock) :
    ∃ result, aesEncrypt text ctx = .ok result ∧
      view result = layers.encrypt (ctx.rnd.toNat - 1) ctx.keys (view text) := by
  rw [aesEncrypt, if_pos keyed]
  refine ⟨_, rfl, ?_⟩
  rw [KeyAlternating.Layers.encrypt, rounds_pred keyed]
  refine (view_add _ _).trans ?_
  rw [view_shift_sub, view_cipher_rounds]
  exact congrArg _ (congrArg _ (congrArg (layers.forward _ · _) (view_add _ _)))

/-- And it deciphers with the same round keys backwards. -/
theorem decrypt_keyed {ctx : Context} (keyed : ctx.rnd ≠ 0#8) (text : ByteBlock) :
    ∃ result, aesDecrypt text ctx = .ok result ∧
      view result = layers.decrypt (ctx.rnd.toNat - 1)
        (fun slot => ctx.keys (ctx.rnd.toNat - slot)) (view text) := by
  rw [aesDecrypt, if_pos keyed]
  refine ⟨_, rfl, ?_⟩
  rw [KeyAlternating.Layers.decrypt, rounds_pred keyed, Nat.sub_self]
  refine (view_add _ _).trans ?_
  rw [view_decipher_rounds ctx _ (layers.add (ctx.keys ctx.rnd.toNat) (view text))]
  · rfl
  · rw [view_inv_shift_sub]
    exact congrArg _ (view_add _ _)

/-- A block that was enciphered is deciphered again, by the inversion of the layers, for
every context. -/
theorem decrypt_of_encrypt {ctx : Context} (keyed : ctx.rnd ≠ 0#8) {text result : ByteBlock}
    (encrypted : aesEncrypt text ctx = .ok result) : aesDecrypt result ctx = .ok text := by
  obtain ⟨found, same, cipher⟩ := encrypt_keyed keyed text
  obtain rfl : found = result := Except.ok.inj (same.symm.trans encrypted)
  obtain ⟨plain, decrypted, inverse⟩ := decrypt_keyed keyed found
  have undone := layers.decrypt_encrypt (ctx.rnd.toNat - 1) ctx.keys (view text)
  rw [rounds_pred keyed, ← cipher, ← inverse] at undone
  rw [decrypted, view_injective undone]

/-- A block that was deciphered is enciphered again, by the inversion of the layers, for
every context. -/
theorem encrypt_of_decrypt {ctx : Context} (keyed : ctx.rnd ≠ 0#8) {text result : ByteBlock}
    (decrypted : aesDecrypt text ctx = .ok result) : aesEncrypt result ctx = .ok text := by
  obtain ⟨found, same, inverse⟩ := decrypt_keyed keyed text
  obtain rfl : found = result := Except.ok.inj (same.symm.trans decrypted)
  obtain ⟨again, encrypted, cipher⟩ := encrypt_keyed keyed found
  have redone := layers.encrypt_decrypt (ctx.rnd.toNat - 1) ctx.keys (view text)
  rw [rounds_pred keyed, ← inverse, ← cipher] at redone
  rw [encrypted, view_injective redone]

/-- Without rounds nothing is put out, and both functions return minus one. -/
theorem refused {ctx : Context} (unkeyed : ctx.rnd = 0#8) (text : ByteBlock) :
    aesEncrypt text ctx = .error (stored 255) ∧ aesDecrypt text ctx = .error (stored 255) := by
  constructor
  · rw [aesEncrypt, if_neg (not_not_intro unkeyed)]
  · rw [aesDecrypt, if_neg (not_not_intro unkeyed)]

/-- The round keys after a key has been set are those of the standard for the words of this
key. -/
theorem set_key_keys (key : Vector Byte n) {keylen : Byte} (selected : keyBytes keylen = some n)
    (ctx : Context) {r : Nat} (bounded : r ≤ (keyWords key).length + 6) :
    (aesSetKey key keylen ctx).2.keys r = roundKeyOf (keyWords key) r := by
  obtain ⟨_, _, schedule⟩ := set_key_words key selected ctx
  funext c
  exact (words_chunk _ r c).trans (schedule (4 * r + c.val) (by omega))

/-- A key length is accepted together with a number of bytes: five values are, and each of
them names the bytes of the key. -/
theorem key_bytes_of_mem {keylen : Byte}
    (accepted : (keylen.toNat, n) ∈ [(16, 16), (128, 16), (24, 24), (192, 24), (32, 32)]) :
    keyBytes keylen = some n := by
  simp only [List.mem_cons, Prod.mk.injEq, List.not_mem_nil, or_false] at accepted
  obtain ⟨length, rfl⟩ | ⟨length, rfl⟩ | ⟨length, rfl⟩ | ⟨length, rfl⟩ | ⟨length, rfl⟩ := accepted
  all_goals simp only [keyBytes, length]

/-- All other lengths are refused. -/
theorem key_bytes_of_not_mem {keylen : Byte} (other : keylen.toNat ∉ [16, 24, 32, 128, 192]) :
    keyBytes keylen = none := by
  have bounded := keylen.isLt
  simp only [List.mem_cons, List.not_mem_nil, or_false, not_or] at other
  rw [keyBytes]
  split <;> first | rfl | omega

/-- For a key length in bytes or, below 256, in bits the context enciphers and deciphers by
the standard, where `unsigned long` has 32 bits. After any other length nothing is put out,
and every call says so. -/
theorem set_key_exact (key : Vector Byte n) (keylen : Byte) (ctx : Context) (text : ByteBlock) :
    ((keylen.toNat, n) ∈ [(16, 16), (128, 16), (24, 24), (192, 24), (32, 32)] →
      (aesSetKey key keylen ctx).1 = 0#8 ∧
        ∃ result plain, aesEncrypt text (aesSetKey key keylen ctx).2 = .ok result ∧
          aesDecrypt text (aesSetKey key keylen ctx).2 = .ok plain ∧
          ofState (view result) = cipherOf (keyWords key) (ofState (view text)) ∧
          ofState (view plain) = invCipherOf (keyWords key) (ofState (view text))) ∧
      (keylen.toNat ∉ [16, 24, 32, 128, 192] →
        (aesSetKey key keylen ctx).1 = stored 255 ∧
          aesEncrypt text (aesSetKey key keylen ctx).2 = .error (stored 255) ∧
          aesDecrypt text (aesSetKey key keylen ctx).2 = .error (stored 255)) := by
  constructor
  · intro accepted
    have selected := key_bytes_of_mem accepted
    obtain ⟨code, rounds, _⟩ := set_key_words key selected ctx
    have keyed : (aesSetKey key keylen ctx).2.rnd ≠ 0#8 := by
      intro zero
      rw [zero] at rounds
      exact absurd rounds (by simp)
    have inner : (aesSetKey key keylen ctx).2.rnd.toNat - 1 = (keyWords key).length + 5 := by omega
    obtain ⟨result, encrypted, cipher⟩ := encrypt_keyed keyed text
    obtain ⟨plain, decrypted, inverse⟩ := decrypt_keyed keyed text
    refine ⟨code, result, plain, encrypted, decrypted, ?_, ?_⟩
    · rw [cipherOf, to_state_of_state, cipher, inner]
      exact congrArg ofState (layers.encrypt_congr _ fun r bounded =>
        set_key_keys key selected ctx (by omega))
    · rw [invCipherOf, to_state_of_state, inverse, inner, rounds]
      exact congrArg ofState (layers.decrypt_congr _ fun slot _ =>
        set_key_keys key selected ctx (by omega))
  · intro other
    rw [aesSetKey, key_bytes_of_not_mem other]
    exact ⟨rfl, refused rfl text⟩

/-- The key of the standard's example, announced as 128 bits, and a refused length. -/
theorem set_key_exact_example :
    let key : Vector Byte 16 := Vector.ofFn fun i => stored i.val
    let text : ByteBlock := Vector.ofFn fun i => stored (17 * i.val)
    let ctx : Context := ⟨Vector.replicate 240 0#8, 0#8⟩
    ((aesSetKey key 128#8 ctx).1 = 0#8 ∧
        ∃ result plain, aesEncrypt text (aesSetKey key 128#8 ctx).2 = .ok result ∧
          aesDecrypt text (aesSetKey key 128#8 ctx).2 = .ok plain ∧
          ofState (view result) = cipherOf (keyWords key) (ofState (view text)) ∧
          ofState (view plain) = invCipherOf (keyWords key) (ofState (view text))) ∧
      (aesSetKey key 0#8 ctx).1 = stored 255 ∧
        aesEncrypt text (aesSetKey key 0#8 ctx).2 = .error (stored 255) ∧
        aesDecrypt text (aesSetKey key 0#8 ctx).2 = .error (stored 255) :=
  ⟨(set_key_exact _ 128#8 _ _).1 (by decide), (set_key_exact _ 0#8 _ _).2 (by decide)⟩

end AesCore.ByteCipher
