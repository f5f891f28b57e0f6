import Mathlib.Logic.Function.Iterate
import AesCore.ByteRounds

/-!
# The byte-oriented cipher with keys on the fly

The other functions of `aes-byte-29-08-08` keep one group of the schedule and bring it
forward while they encipher, or back while they decipher. The key that is left after an
encryption is the one a decryption starts from, and the other way round.

A group of four words is one round key. A group of eight words is two of them, so that
only every other round of the cipher for keys of 256 bits has to move the group.

As for the rounds, `unsigned long` has 32 bits.
-/

namespace AesCore.ByteCipher

open ByteField (Byte xPower)
open Fips197

variable {n : Nat}

/-- A group of the schedule in `o_key`, and the constant for the group that follows. Both
move on together, forward or back. -/
structure RunningKey (n : Nat) where
  k : Vector Byte n
  rc : Byte
  deriving DecidableEq

/-- What the loops of these functions change: the state `s1`, the group in `o_key` and the
constant. -/
structure OnTheFly (n : Nat) where
  s1 : ByteBlock
  key : RunningKey n

/-- Assignments `k[cc + t] ^= b` for `t` from 0 to 3. The bytes added never come from the
four that are written. -/
def addAt (k : Vector Byte n) (cc : Nat) (b0 b1 b2 b3 : Byte) : Vector Byte n :=
  put k cc (byte k (cc + 0) ^^^ b0) (byte k (cc + 1) ^^^ b1) (byte k (cc + 2) ^^^ b2)
    (byte k (cc + 3) ^^^ b3)

/-- The body of the loops of the key updates: four bytes take up the four before them. -/
def addBefore (k : Vector Byte n) (cc : Nat) : Vector Byte n :=
  addAt k cc (byte k (cc - 4)) (byte k (cc - 3)) (byte k (cc - 2)) (byte k (cc - 1))

/-- The first four bytes of the key updates, which depend on those from index `l` on, the
last word of the group. -/
def addRotated (k : Vector Byte n) (rc : Byte) (l : Nat) : Vector Byte n :=
  addAt k 0 (sBox (byte k (l + 1)) ^^^ rc) (sBox (byte k (l + 2))) (sBox (byte k (l + 3)))
    (sBox (byte k l))

/-- The bytes in the middle of the key updates for keys of 256 bits. They are substituted,
but not rotated. -/
def addSubstituted (k : Vector Byte n) : Vector Byte n :=
  addAt k 16 (sBox (byte k 12)) (sBox (byte k 13)) (sBox (byte k 14)) (sBox (byte k 15))

/-- Function `update_encrypt_key_128`. The first word takes up the last one of the group
before, and each further word the new one in front of it. -/
def updateEncryptKey128 (s : RunningKey 16) : RunningKey 16 :=
  let k := addRotated s.k s.rc 12
  let rc := stored (f2 s.rc.toNat)
  { k := [4, 8, 12].foldl addBefore k, rc }

/-- Function `update_decrypt_key_128`: the steps of the other update in the opposite order.
The constant is stepped back before it is used. -/
def updateDecryptKey128 (s : RunningKey 16) : RunningKey 16 :=
  let k := [12, 8, 4].foldl addBefore s.k
  let rc := stored (d2 s.rc.toNat)
  { k := addRotated k rc 12, rc }

/-- Function `update_encrypt_key_256`, with one more substitution in the middle of the
group. -/
def updateEncryptKey256 (s : RunningKey 32) : RunningKey 32 :=
  let k := addRotated s.k s.rc 28
  let rc := stored (f2 s.rc.toNat)
  let k := [4, 8, 12].foldl addBefore k
  let k := addSubstituted k
  { k := [20, 24, 28].foldl addBefore k, rc }

/-- Function `update_decrypt_key_256`: the steps of the other update in the opposite order.
The constant is stepped back before it is used. -/
def updateDecryptKey256 (s : RunningKey 32) : RunningKey 32 :=
  let k := [28, 24, 20].foldl addBefore s.k
  let k := addSubstituted k
  let k := [12, 8, 4].foldl addBefore k
  let rc := stored (d2 s.rc.toNat)
  { k := addRotated k rc 28, rc }

/-- The variables after round `r` of `aes_encrypt_128`. The key is brought forward between
the mixing and the addition. -/
def encryptLoop128 (input key : ByteBlock) : Nat → OnTheFly 16
  | 0 => ⟨copyAndKey input key, key, 1#8⟩
  | r + 1 =>
    let s := encryptLoop128 input key r
    let s1 := mixSubColumns s.s1
    let key := updateEncryptKey128 s.key
    ⟨addRoundKey s1 key.k, key⟩

/-- Function `aes_encrypt_128`: the arrays `out` and `o_key`. The key may be given in the
array `o_key` itself, and the text in `out`, since both are copied first. -/
def aesEncrypt128 (input key : ByteBlock) : ByteBlock × ByteBlock :=
  let s := encryptLoop128 input key 9
  let s1 := shiftSubRows s.s1
  let key := updateEncryptKey128 s.key
  (copyAndKey s1 key.k, key.k)

/-- The variables after `j` rounds of `aes_decrypt_128`. It starts from the constant behind
the tenth, which an encryption would compute next. -/
def decryptLoop128 (input key : ByteBlock) : Nat → OnTheFly 16
  | 0 => ⟨invShiftSubRows (copyAndKey input key), key, 0x6c#8⟩
  | j + 1 =>
    let s := decryptLoop128 input key j
    let key := updateDecryptKey128 s.key
    let s1 := addRoundKey s.s1 key.k
    ⟨invMixSubColumns s1, key⟩

/-- Function `aes_decrypt_128`: the arrays `out` and `o_key`. After the loop the group is
brought back once more, to the key itself. -/
def aesDecrypt128 (input key : ByteBlock) : ByteBlock × ByteBlock :=
  let s := decryptLoop128 input key 9
  let key := updateDecryptKey128 s.key
  (copyAndKey s.s1 key.k, key.k)

/-- The variables after round `r` of `aes_encrypt_256`. An odd round uses the second half of
the group, an even one brings it forward and uses the first half. -/
def encryptLoop256 (input : ByteBlock) (key : Vector Byte 32) : Nat → OnTheFly 32
  | 0 => ⟨copyAndKey input (chunk key 0), key, 1#8⟩
  | r + 1 =>
    let s := encryptLoop256 input key r
    let s1 := mixSubColumns s.s1
    if (r + 1) &&& 1 ≠ 0 then
      ⟨addRoundKey s1 (chunk s.key.k 1), s.key⟩
    else
      let key := updateEncryptKey256 s.key
      ⟨addRoundKey s1 (chunk key.k 0), key⟩

/-- Function `aes_encrypt_256`: the arrays `out` and `o_key`. The last round begins a group,
of which the second half is not used any more. -/
def aesEncrypt256 (input : ByteBlock) (key : Vector Byte 32) : ByteBlock × Vector Byte 32 :=
  let s := encryptLoop256 input key 13
  let s1 := shiftSubRows s.s1
  let key := updateEncryptKey256 s.key
  (copyAndKey s1 (chunk key.k 0), key.k)

/-- The variables after `j` rounds of `aes_decrypt_256`, the next of which is round `13 - j`
of the loop. An odd round brings the group back and uses its second half, an even one the
first half of the same group. -/
def decryptLoop256 (input : ByteBlock) (key : Vector Byte 32) : Nat → OnTheFly 32
  | 0 => ⟨invShiftSubRows (copyAndKey input (chunk key 0)), key, 0x80#8⟩
  | j + 1 =>
    let s := decryptLoop256 input key j
    if (13 - j) &&& 1 ≠ 0 then
      let key := updateDecryptKey256 s.key
      ⟨invMixSubColumns (addRoundKey s.s1 (chunk key.k 1)), key⟩
    else
      ⟨invMixSubColumns (addRoundKey s.s1 (chunk s.key.k 0)), s.key⟩

/-- Function `aes_decrypt_256`: the arrays `out` and `o_key`. The round of the loop before
the end has brought the group back for the last time. -/
def aesDecrypt256 (input : ByteBlock) (key : Vector Byte 32) : ByteBlock × Vector Byte 32 :=
  let s := decryptLoop256 input key 13
  (copyAndKey s.s1 (chunk s.key.k 0), s.key.k)

/-!
## Updates undo each other
-/

/-- Arrays with the same words are equal, if they have no bytes beside their words. -/
theorem words_ext {left right : Vector Byte n} (whole : n % 4 = 0)
    (same : ∀ i, 4 * i + 3 < n → word left i = word right i) : left = right := by
  apply Vector.ext
  intro i inside
  have byte := congrArg (wordByte · ⟨i % 4, by omega⟩) (same (i / 4) (by omega))
  simp only [word_byte_word, Nat.div_add_mod] at byte
  rwa [byte_of inside, byte_of inside] at byte

/-- The words of an array after an addition to one of them: this word is the sum, and every
other is as before. -/
theorem word_add_at (k : Vector Byte n) {m i : Nat} (b0 b1 b2 b3 : Byte) (inside : 4 * i + 3 < n) :
    word (addAt k (4 * m) b0 b1 b2 b3) i =
      if i = m then word k m ^^^ ofBytes b0 b1 b2 b3 else word k i := by
  rw [addAt, word_put k _ _ _ _ inside, of_bytes_xor]
  rfl

/-- The loops add a word to the one behind it and leave all others alone. -/
theorem word_add_before (k : Vector Byte n) {cc i : Nat} (aligned : cc % 4 = 0) (behind : 4 ≤ cc)
    (inside : 4 * i + 3 < n) : word (addBefore k cc) i =
      if i = cc / 4 then word k (cc / 4) ^^^ word k (cc / 4 - 1) else word k i := by
  obtain ⟨m, rfl⟩ : ∃ m, cc = 4 * (m + 1) := ⟨cc / 4 - 1, by omega⟩
  rw [Nat.mul_div_cancel_left (m + 1) (by decide)]
  exact word_add_at k _ _ _ _ inside

/-- The first word is added a later one, rotated, substituted and given a constant. All
others are left alone. -/
theorem word_add_rotated (k : Vector Byte n) (rc : Byte) {l i : Nat} (aligned : l % 4 = 0)
    (inside : 4 * i + 3 < n) : word (addRotated k rc l) i =
      if i = 0 then word k 0 ^^^ (subWord (rotWord (word k (l / 4))) ^^^ ofBytes rc 0#8 0#8 0#8)
      else word k i := by
  obtain ⟨m, rfl⟩ : ∃ m, l = 4 * m := ⟨l / 4, by omega⟩
  have last : word k m = ofBytes (byte k (4 * m)) (byte k (4 * m + 1)) (byte k (4 * m + 2))
      (byte k (4 * m + 3)) := rfl
  rw [Nat.mul_div_cancel_left m (by decide), last, rot_word_of_bytes, sub_word_of_bytes,
    ← of_bytes_constant]
  exact word_add_at (m := 0) k _ _ _ _ inside

/-- The fifth word is added the one before it, substituted. All others are left alone. -/
theorem word_add_substituted (k : Vector Byte n) {i : Nat} (inside : 4 * i + 3 < n) :
    word (addSubstituted k) i = if i = 4 then word k 4 ^^^ subWord (word k 3) else word k i := by
  have fourth : word k 3 = ofBytes (byte k 12) (byte k 13) (byte k 14) (byte k 15) := rfl
  rw [fourth, sub_word_of_bytes]
  exact word_add_at (m := 4) k _ _ _ _ inside

/-- A step that adds to one word what depends on another one is undone when it is done
again: the other word has not changed, so the same sum is added twice. All steps of the
updates have this form. -/
theorem added_twice {f : Vector Byte n → Vector Byte n} {t l : Nat} {g : Word → Word}
    (added : ∀ k i, 4 * i + 3 < n →
      word (f k) i = if i = t then word k t ^^^ g (word k l) else word k i)
    (whole : n % 4 = 0) (target : 4 * t + 3 < n) (origin : 4 * l + 3 < n) (distinct : l ≠ t)
    (k : Vector Byte n) : f (f k) = k := by
  apply words_ext whole
  intro i inside
  rw [added _ i inside, added k t target, added k l origin, added k i inside, if_pos rfl,
    if_neg distinct, BitVec.xor_assoc, BitVec.xor_self, BitVec.xor_zero]
  by_cases same : i = t
  · rw [if_pos same, same]
  · rw [if_neg same, if_neg same]

/-- The body of the loops is such a step. -/
theorem add_before_twice (k : Vector Byte n) {cc : Nat} (whole : n % 4 = 0)
    (aligned : cc % 4 = 0) (behind : 4 ≤ cc) (inside : cc < n) :
    addBefore (addBefore k cc) cc = k :=
  added_twice (f := fun k => addBefore k cc) (g := id)
    (fun k _ inside => word_add_before k aligned behind inside) whole (by omega) (by omega)
    (by omega) k

/-- So is the first step of an update. -/
theorem add_rotated_twice (k : Vector Byte n) (rc : Byte) {l : Nat} (whole : n % 4 = 0)
    (aligned : l % 4 = 0) (behind : 4 ≤ l) (inside : l < n) :
    addRotated (addRotated k rc l) rc l = k :=
  added_twice (f := fun k => addRotated k rc l) (t := 0) (l := l / 4)
    (g := fun last => subWord (rotWord last) ^^^ ofBytes rc 0#8 0#8 0#8)
    (fun k _ inside => word_add_rotated k rc aligned inside) whole (by omega) (by omega)
    (by omega) k

/-- So is the step in the middle. -/
theorem add_substituted_twice (k : Vector Byte n) (whole : n % 4 = 0) (inside : 19 < n) :
    addSubstituted (addSubstituted k) = k :=
  added_twice (t := 4) (l := 3) (g := subWord) (fun k _ inside => word_add_substituted k inside)
    whole inside (by omega) (by omega) k

/-- The constants go back and forth: the macros `f2` and `d2` are inverse on bytes. One
kernel computation over all bytes. -/
theorem constants_undone : ∀ rc : Byte, stored (d2 (stored (f2 rc.toNat)).toNat) = rc ∧
    stored (f2 (stored (d2 rc.toNat)).toNat) = rc := by
  decide +kernel

/-- The two updates of a group of four words undo each other, for any group and constant.
Proof: the steps cancel in pairs, from the innermost outwards. -/
theorem update_128_undone (s : RunningKey 16) :
    updateDecryptKey128 (updateEncryptKey128 s) = s ∧
      updateEncryptKey128 (updateDecryptKey128 s) = s := by
  simp (disch := decide) only [updateDecryptKey128, updateEncryptKey128, List.foldl,
    constants_undone, add_before_twice, add_rotated_twice, and_self]

/-- So do the two updates of a group of eight words. -/
theorem update_256_undone (s : RunningKey 32) :
    updateDecryptKey256 (updateEncryptKey256 s) = s ∧
      updateEncryptKey256 (updateDecryptKey256 s) = s := by
  simp (disch := decide) only [updateDecryptKey256, updateEncryptKey256, List.foldl,
    constants_undone, add_before_twice, add_substituted_twice, add_rotated_twice, and_self]

/-- An update brings a group of four words forward: each word takes up `temp` of the
schedule, which depends on the word in front of it, new already inside the group. -/
theorem update_128_forward (s : RunningKey 16) {q : Nat} (constant : s.rc = xPower q) {i : Nat}
    (inside : i < 4) : word (updateEncryptKey128 s).k i =
      word s.k i ^^^ scheduleTemp 4 (q + 1) i
        (if i = 0 then word s.k (4 - 1) else word (updateEncryptKey128 s).k (i - 1)) := by
  have position : i = 0 ∨ i = 1 ∨ i = 2 ∨ i = 3 := by omega
  obtain rfl | rfl | rfl | rfl := position
  all_goals
    simp (disch := decide) [updateEncryptKey128, word_add_rotated, word_add_before, scheduleTemp,
      rcon, ← constant]

/-- An update brings a group of eight words forward: each word takes up `temp` of the
schedule, which depends on the word in front of it, new already inside the group. -/
theorem update_256_forward (s : RunningKey 32) {q : Nat} (constant : s.rc = xPower q) {i : Nat}
    (inside : i < 8) : word (updateEncryptKey256 s).k i =
      word s.k i ^^^ scheduleTemp 8 (q + 1) i
        (if i = 0 then word s.k (8 - 1) else word (updateEncryptKey256 s).k (i - 1)) := by
  have position : i = 0 ∨ i = 1 ∨ i = 2 ∨ i = 3 ∨ i = 4 ∨ i = 5 ∨ i = 6 ∨ i = 7 := by omega
  obtain rfl | rfl | rfl | rfl | rfl | rfl | rfl | rfl := position
  all_goals
    simp (disch := decide) [updateEncryptKey256, word_add_rotated, word_add_before,
      word_add_substituted, scheduleTemp, rcon, ← constant]

/-!
## Whole runs of updates
-/

/-- Undoing fewer steps than were taken leaves the others. -/
theorem iterate_undone {α : Type} {f g : α → α} (undone : Function.LeftInverse g f) {i t : Nat}
    (bounded : i ≤ t) (x : α) : g^[i] (f^[t] x) = f^[t - i] x := by
  obtain ⟨rest, rfl⟩ : ∃ rest, t = i + rest := ⟨t - i, by omega⟩
  rw [Function.iterate_add_apply, undone.iterate i, Nat.add_sub_cancel_left]

/-- The constant after a number of updates depends on the one before them only, not on the
group. -/
theorem iterate_rc {f : RunningKey n → RunningKey n} {g : Byte → Byte}
    (constants : ∀ s, (f s).rc = g s.rc) (k : Vector Byte n) (rc : Byte) (q : Nat) :
    (f^[q] ⟨k, rc⟩).rc = g^[q] rc :=
  (Function.Semiconj.iterate_right (f := RunningKey.rc) constants q) ⟨k, rc⟩

/-- Updates that bring a group forward go through the whole schedule: after `q` of them the
group starts at word `q` times its length. Proof: induction over the updates, and inside a
group over its words. -/
theorem iterate_group {key : List Word} {nk : Nat} {f : RunningKey n → RunningKey n}
    (length : key.length = nk) (constants : ∀ s, (f s).rc = stored (f2 s.rc.toNat))
    (forward : ∀ s q, s.rc = xPower q → ∀ i, i < nk → word (f s).k i =
      word s.k i ^^^ scheduleTemp nk (q + 1) i
        (if i = 0 then word s.k (nk - 1) else word (f s).k (i - 1)))
    {s : RunningKey n} (constant : s.rc = 1#8) (held : ∀ i, i < nk → word s.k i = keySchedule key i)
    (q : Nat) : (f^[q] s).rc = xPower q ∧
      ∀ i, i < nk → word (f^[q] s).k i = keySchedule key (nk * q + i) := by
  induction q with
  | zero =>
    refine ⟨constant, ?_⟩
    intro i inside
    rw [Nat.mul_zero, Nat.zero_add]
    exact held i inside
  | succ q inductionHypothesis =>
    obtain ⟨ready, group⟩ := inductionHypothesis
    rw [Function.iterate_succ_apply']
    constructor
    · rw [constants, next_rc, ready]
      rfl
    · intro i inside
      exact key_schedule_group length group (forward _ q ready) inside

/-- The group of four words after `q` updates is the round key with this number. -/
theorem group_128 (key : ByteBlock) (q : Nat) :
    (updateEncryptKey128^[q] ⟨key, 1#8⟩).rc = xPower q ∧
      ∀ i, i < 4 → word (updateEncryptKey128^[q] ⟨key, 1#8⟩).k i =
        keySchedule (keyWords key) (4 * q + i) := by
  have length : (keyWords key).length = 4 := by simp [keyWords]
  have held (i : Nat) (inside : i < 4) : word key i = keySchedule (keyWords key) i :=
    (key_schedule_key_words key (by omega)).symm
  have whole := iterate_group (s := ⟨key, 1#8⟩) length (fun _ => rfl)
    (fun s q constant i inside => update_128_forward s constant inside) rfl held q
  exact whole

/-- The group of eight words after `q` updates, which is two round keys. -/
theorem group_256 (key : Vector Byte 32) (q : Nat) :
    (updateEncryptKey256^[q] ⟨key, 1#8⟩).rc = xPower q ∧
      ∀ i, i < 8 → word (updateEncryptKey256^[q] ⟨key, 1#8⟩).k i =
        keySchedule (keyWords key) (8 * q + i) := by
  have length : (keyWords key).length = 8 := by simp [keyWords]
  have held (i : Nat) (inside : i < 8) : word key i = keySchedule (keyWords key) i :=
    (key_schedule_key_words key (by omega)).symm
  have whole := iterate_group (s := ⟨key, 1#8⟩) length (fun _ => rfl)
    (fun s q constant i inside => update_256_forward s constant inside) rfl held q
  exact whole

/-- A group is ready for what starts from its constant. A function that starts sets `rc`
anew, and this changes nothing. -/
theorem ready {s : RunningKey n} {rc : Byte} (constant : s.rc = rc) :
    (⟨s.k, rc⟩ : RunningKey n) = s := by
  rw [← constant]

/-!
## Keys of 128 bits
-/

/-- Round key `r` of an encryption: the group after `r` updates. -/
def keys128 (key : ByteBlock) (r : Nat) : Fin 4 → Word :=
  words (updateEncryptKey128^[r] ⟨key, 1#8⟩).k

/-- Key `slot` that a decryption reads: the group after as many updates back. -/
def slots128 (key : ByteBlock) (slot : Nat) : Fin 4 → Word :=
  words (updateDecryptKey128^[slot] ⟨key, 0x6c#8⟩).k

/-- The rounds of `aes_encrypt_128`: the group is updated once a round, and the state goes
through the full rounds of the standard with these keys. -/
theorem encrypt_loop_128 (input key : ByteBlock) (r : Nat) :
    (encryptLoop128 input key r).key = updateEncryptKey128^[r] ⟨key, 1#8⟩ ∧
      view (encryptLoop128 input key r).s1 =
        layers.forward (keys128 key) (layers.add (keys128 key 0) (view input)) r := by
  induction r with
  | zero => exact ⟨rfl, view_add input key⟩
  | succ r inductionHypothesis =>
    obtain ⟨group, rounds⟩ := inductionHypothesis
    have updated : updateEncryptKey128 (encryptLoop128 input key r).key =
        updateEncryptKey128^[r + 1] ⟨key, 1#8⟩ := by
      rw [Function.iterate_succ_apply', ← group]
    refine ⟨updated, ?_⟩
    refine (view_add _ _).trans ?_
    rw [view_mix_sub, rounds, updated]
    rfl

/-- The rounds of `aes_decrypt_128`. The inverse substitution of a round has been done at
the end of the round before it, as in the prekeyed function. -/
theorem decrypt_loop_128 (input key : ByteBlock) (j : Nat) :
    (decryptLoop128 input key j).key = updateDecryptKey128^[j] ⟨key, 0x6c#8⟩ ∧
      view (decryptLoop128 input key j).s1 = layers.unsub
        (layers.backward (slots128 key) (layers.add (slots128 key 0) (view input)) j) := by
  induction j with
  | zero =>
    refine ⟨rfl, ?_⟩
    exact (view_inv_shift_sub _).trans (congrArg layers.unsub (view_add input key))
  | succ j inductionHypothesis =>
    obtain ⟨group, rounds⟩ := inductionHypothesis
    have updated : updateDecryptKey128 (decryptLoop128 input key j).key =
        updateDecryptKey128^[j + 1] ⟨key, 0x6c#8⟩ := by
      rw [Function.iterate_succ_apply', ← group]
    refine ⟨updated, ?_⟩
    refine (view_inv_mix_sub _).trans ?_
    rw [view_add, rounds, updated]
    rfl

/-- What `aes_encrypt_128` puts out: nine full rounds and the last one with the keys of ten
updates, and the group they end with. -/
theorem aes_encrypt_128_eq (input key : ByteBlock) :
    view (aesEncrypt128 input key).1 = layers.encrypt 9 (keys128 key) (view input) ∧
      (aesEncrypt128 input key).2 = (updateEncryptKey128^[10] ⟨key, 1#8⟩).k := by
  obtain ⟨group, rounds⟩ := encrypt_loop_128 input key 9
  have updated : updateEncryptKey128 (encryptLoop128 input key 9).key =
      updateEncryptKey128^[10] ⟨key, 1#8⟩ := by
    rw [Function.iterate_succ_apply', ← group]
  refine ⟨?_, congrArg RunningKey.k updated⟩
  refine (view_add _ _).trans ?_
  rw [view_shift_sub, rounds, updated]
  rfl

/-- What `aes_decrypt_128` puts out: the inverse rounds with the keys of ten updates back,
and the group they end with. -/
theorem aes_decrypt_128_eq (input key : ByteBlock) :
    view (aesDecrypt128 input key).1 = layers.decrypt 9 (slots128 key) (view input) ∧
      (aesDecrypt128 input key).2 = (updateDecryptKey128^[10] ⟨key, 0x6c#8⟩).k := by
  obtain ⟨group, rounds⟩ := decrypt_loop_128 input key 9
  have updated : updateDecryptKey128 (decryptLoop128 input key 9).key =
      updateDecryptKey128^[10] ⟨key, 0x6c#8⟩ := by
    rw [Function.iterate_succ_apply', ← group]
  refine ⟨?_, congrArg RunningKey.k updated⟩
  refine (view_add _ _).trans ?_
  rw [rounds, updated]
  rfl

/-- An encryption ends with the constant that a decryption starts from. -/
theorem ready_to_decrypt_128 (key : ByteBlock) :
    (⟨(updateEncryptKey128^[10] ⟨key, 1#8⟩).k, 0x6c#8⟩ : RunningKey 16) =
      updateEncryptKey128^[10] ⟨key, 1#8⟩ := by
  have constant := iterate_rc (f := updateEncryptKey128) (g := fun rc => stored (f2 rc.toNat))
    (fun _ => rfl) key 1#8 10
  exact ready (constant.trans (by decide))

/-- And the other way round, for any group that a decryption started from. -/
theorem ready_to_encrypt_128 (key : ByteBlock) :
    (⟨(updateDecryptKey128^[10] ⟨key, 0x6c#8⟩).k, 1#8⟩ : RunningKey 16) =
      updateDecryptKey128^[10] ⟨key, 0x6c#8⟩ := by
  have constant := iterate_rc (f := updateDecryptKey128) (g := fun rc => stored (d2 rc.toNat))
    (fun _ => rfl) key 0x6c#8 10
  exact ready (constant.trans (by decide))

/-- `aes_decrypt_128` undoes `aes_encrypt_128`, for the text and for the key. Proof: the
slots of the decryption are the round keys of the encryption backwards, because each update
back undoes one forward. -/
theorem decrypt_encrypt_128 (input key : ByteBlock) :
    aesDecrypt128 (aesEncrypt128 input key).1 (aesEncrypt128 input key).2 = (input, key) := by
  obtain ⟨encrypted, lastKey⟩ := aes_encrypt_128_eq input key
  obtain ⟨text, left⟩ := aes_decrypt_128_eq (aesEncrypt128 input key).1 (aesEncrypt128 input key).2
  have undone : Function.LeftInverse updateDecryptKey128 updateEncryptKey128 :=
    fun s => (update_128_undone s).1
  have slots (slot : Nat) (bounded : slot ≤ 10) :
      slots128 (aesEncrypt128 input key).2 slot = keys128 key (10 - slot) := by
    rw [lastKey, slots128, ready_to_decrypt_128, iterate_undone undone bounded, keys128]
  have recovered := layers.decrypt_encrypt_of slots (view input)
  rw [← encrypted] at recovered
  refine Prod.ext (view_injective (text.trans recovered)) ?_
  rw [left, lastKey, ready_to_decrypt_128, undone.iterate 10]

/-- And the other way round. -/
theorem encrypt_decrypt_128 (input key : ByteBlock) :
    aesEncrypt128 (aesDecrypt128 input key).1 (aesDecrypt128 input key).2 = (input, key) := by
  obtain ⟨decrypted, firstKey⟩ := aes_decrypt_128_eq input key
  obtain ⟨text, left⟩ := aes_encrypt_128_eq (aesDecrypt128 input key).1 (aesDecrypt128 input key).2
  have redone : Function.LeftInverse updateEncryptKey128 updateDecryptKey128 :=
    fun s => (update_128_undone s).2
  have slots (slot : Nat) (bounded : slot ≤ 10) :
      slots128 key slot = keys128 (aesDecrypt128 input key).2 (10 - slot) := by
    rw [firstKey, keys128, ready_to_encrypt_128, iterate_undone redone (Nat.sub_le 10 slot),
      Nat.sub_sub_self bounded, slots128]
  have recovered := layers.encrypt_decrypt_of slots (view input)
  rw [← decrypted] at recovered
  refine Prod.ext (view_injective (text.trans recovered)) ?_
  rw [left, firstKey, ready_to_encrypt_128, redone.iterate 10]

/-- `aes_encrypt_128` enciphers by the standard and leaves the last round key. Each of the
two functions recovers text and key from what the other one puts out. Here and below
`unsigned long` has 32 bits, as `copy_and_key` and `add_round_key` require. -/
theorem on_the_fly_128_exact (input key : ByteBlock) :
    ofState (view (aesEncrypt128 input key).1) = cipherOf (keyWords key) (ofState (view input)) ∧
      words (aesEncrypt128 input key).2 = roundKeyOf (keyWords key) 10 ∧
      aesDecrypt128 (aesEncrypt128 input key).1 (aesEncrypt128 input key).2 = (input, key) ∧
      aesEncrypt128 (aesDecrypt128 input key).1 (aesDecrypt128 input key).2 = (input, key) := by
  obtain ⟨encrypted, lastKey⟩ := aes_encrypt_128_eq input key
  have schedule (r : Nat) : keys128 key r = roundKeyOf (keyWords key) r := by
    funext c
    exact (group_128 key r).2 c.val c.isLt
  refine ⟨?_, ?_, decrypt_encrypt_128 input key, encrypt_decrypt_128 input key⟩
  · have length : (keyWords key).length = 4 := by simp [keyWords]
    rw [encrypted, cipherOf, to_state_of_state, length, funext schedule]
  · rw [lastKey]
    exact schedule 10

/-!
## Keys of 256 bits
-/

/-- Round key `r` of an encryption: one half of a group. -/
def keys256 (key : Vector Byte 32) (r : Nat) : Fin 4 → Word :=
  words (chunk (updateEncryptKey256^[r / 2] ⟨key, 1#8⟩).k (r % 2))

/-- Key `slot` that a decryption reads. It begins with the first half of its group, so the
halves are counted from the middle of a pair. -/
def slots256 (key : Vector Byte 32) (slot : Nat) : Fin 4 → Word :=
  words (chunk (updateDecryptKey256^[(slot + 1) / 2] ⟨key, 0x80#8⟩).k (slot % 2))

/-- The rounds of `aes_encrypt_256`: the group is updated every other round, and the state
goes through the full rounds of the standard with its halves. -/
theorem encrypt_loop_256 (input : ByteBlock) (key : Vector Byte 32) (r : Nat) :
    (encryptLoop256 input key r).key = updateEncryptKey256^[r / 2] ⟨key, 1#8⟩ ∧
      view (encryptLoop256 input key r).s1 =
        layers.forward (keys256 key) (layers.add (keys256 key 0) (view input)) r := by
  induction r with
  | zero => exact ⟨rfl, view_add input (chunk key 0)⟩
  | succ r inductionHypothesis =>
    obtain ⟨group, rounds⟩ := inductionHypothesis
    rw [encryptLoop256, Nat.and_one_is_mod]
    by_cases odd : (r + 1) % 2 = 1
    · have same : (r + 1) / 2 = r / 2 := by omega
      have second : keys256 key (r + 1) =
          words (chunk (updateEncryptKey256^[r / 2] ⟨key, 1#8⟩).k 1) := by
        rw [keys256, same, odd]
      rw [if_pos (by omega), same]
      refine ⟨group, ?_⟩
      refine (view_add _ _).trans ?_
      rw [view_mix_sub, rounds, group, ← second]
      rfl
    · have next : (r + 1) / 2 = r / 2 + 1 := by omega
      have even : (r + 1) % 2 = 0 := by omega
      have first : keys256 key (r + 1) =
          words (chunk (updateEncryptKey256^[r / 2 + 1] ⟨key, 1#8⟩).k 0) := by
        rw [keys256, next, even]
      have updated : updateEncryptKey256 (encryptLoop256 input key r).key =
          updateEncryptKey256^[r / 2 + 1] ⟨key, 1#8⟩ := by
        rw [Function.iterate_succ_apply', ← group]
      rw [if_neg (by omega), next]
      refine ⟨updated, ?_⟩
      refine (view_add _ _).trans ?_
      rw [view_mix_sub, rounds, updated, ← first]
      rfl

/-- The rounds of `aes_decrypt_256`. The inverse substitution of a round has been done at
the end of the round before it, and the group is updated every other round from the first
on. -/
theorem decrypt_loop_256 (input : ByteBlock) (key : Vector Byte 32) {j : Nat} (bounded : j ≤ 13) :
    (decryptLoop256 input key j).key = updateDecryptKey256^[(j + 1) / 2] ⟨key, 0x80#8⟩ ∧
      view (decryptLoop256 input key j).s1 = layers.unsub
        (layers.backward (slots256 key) (layers.add (slots256 key 0) (view input)) j) := by
  induction j with
  | zero =>
    refine ⟨rfl, ?_⟩
    exact (view_inv_shift_sub _).trans (congrArg layers.unsub (view_add input (chunk key 0)))
  | succ j inductionHypothesis =>
    obtain ⟨group, rounds⟩ := inductionHypothesis (by omega)
    rw [decryptLoop256, Nat.and_one_is_mod]
    by_cases odd : (13 - j) % 2 = 1
    · have next : (j + 1 + 1) / 2 = (j + 1) / 2 + 1 := by omega
      have half : (j + 1) % 2 = 1 := by omega
      have second : slots256 key (j + 1) =
          words (chunk (updateDecryptKey256^[(j + 1) / 2 + 1] ⟨key, 0x80#8⟩).k 1) := by
        rw [slots256, next, half]
      have updated : updateDecryptKey256 (decryptLoop256 input key j).key =
          updateDecryptKey256^[(j + 1) / 2 + 1] ⟨key, 0x80#8⟩ := by
        rw [Function.iterate_succ_apply', ← group]
      rw [if_pos (by omega), next]
      refine ⟨updated, ?_⟩
      refine (view_inv_mix_sub _).trans ?_
      rw [view_add, rounds, updated, ← second]
      rfl
    · have same : (j + 1 + 1) / 2 = (j + 1) / 2 := by omega
      have half : (j + 1) % 2 = 0 := by omega
      have first : slots256 key (j + 1) =
          words (chunk (updateDecryptKey256^[(j + 1) / 2] ⟨key, 0x80#8⟩).k 0) := by
        rw [slots256, same, half]
      rw [if_neg (by omega), same]
      refine ⟨group, ?_⟩
      refine (view_inv_mix_sub _).trans ?_
      rw [view_add, rounds, group, ← first]
      rfl

/-- What `aes_encrypt_256` puts out: thirteen full rounds and the last one, and the group
after seven updates. -/
theorem aes_encrypt_256_eq (input : ByteBlock) (key : Vector Byte 32) :
    view (aesEncrypt256 input key).1 = layers.encrypt 13 (keys256 key) (view input) ∧
      (aesEncrypt256 input key).2 = (updateEncryptKey256^[7] ⟨key, 1#8⟩).k := by
  obtain ⟨group, rounds⟩ := encrypt_loop_256 input key 13
  have updated : updateEncryptKey256 (encryptLoop256 input key 13).key =
      updateEncryptKey256^[7] ⟨key, 1#8⟩ := by
    rw [Function.iterate_succ_apply', ← group]
  refine ⟨?_, congrArg RunningKey.k updated⟩
  refine (view_add _ _).trans ?_
  rw [view_shift_sub, rounds, updated]
  rfl

/-- What `aes_decrypt_256` puts out. The last group was reached a round before. -/
theorem aes_decrypt_256_eq (input : ByteBlock) (key : Vector Byte 32) :
    view (aesDecrypt256 input key).1 = layers.decrypt 13 (slots256 key) (view input) ∧
      (aesDecrypt256 input key).2 = (updateDecryptKey256^[7] ⟨key, 0x80#8⟩).k := by
  obtain ⟨group, rounds⟩ := decrypt_loop_256 input key (Nat.le_refl 13)
  refine ⟨?_, congrArg RunningKey.k group⟩
  refine (view_add _ _).trans ?_
  rw [rounds, group]
  rfl

/-- An encryption ends with the constant that a decryption starts from. -/
theorem ready_to_decrypt_256 (key : Vector Byte 32) :
    (⟨(updateEncryptKey256^[7] ⟨key, 1#8⟩).k, 0x80#8⟩ : RunningKey 32) =
      updateEncryptKey256^[7] ⟨key, 1#8⟩ := by
  have constant := iterate_rc (f := updateEncryptKey256) (g := fun rc => stored (f2 rc.toNat))
    (fun _ => rfl) key 1#8 7
  exact ready (constant.trans (by decide))

/-- And the other way round, for any group that a decryption started from. -/
theorem ready_to_encrypt_256 (key : Vector Byte 32) :
    (⟨(updateDecryptKey256^[7] ⟨key, 0x80#8⟩).k, 1#8⟩ : RunningKey 32) =
      updateDecryptKey256^[7] ⟨key, 0x80#8⟩ := by
  have constant := iterate_rc (f := updateDecryptKey256) (g := fun rc => stored (d2 rc.toNat))
    (fun _ => rfl) key 0x80#8 7
  exact ready (constant.trans (by decide))

/-- `aes_decrypt_256` undoes `aes_encrypt_256`, for the text and for the key. Proof: as for
the shorter keys; the slots and the round keys agree half by half. -/
theorem decrypt_encrypt_256 (input : ByteBlock) (key : Vector Byte 32) :
    aesDecrypt256 (aesEncrypt256 input key).1 (aesEncrypt256 input key).2 = (input, key) := by
  obtain ⟨encrypted, lastKey⟩ := aes_encrypt_256_eq input key
  obtain ⟨text, left⟩ := aes_decrypt_256_eq (aesEncrypt256 input key).1 (aesEncrypt256 input key).2
  have undone : Function.LeftInverse updateDecryptKey256 updateEncryptKey256 :=
    fun s => (update_256_undone s).1
  have slots (slot : Nat) (bounded : slot ≤ 14) :
      slots256 (aesEncrypt256 input key).2 slot = keys256 key (14 - slot) := by
    have group : 7 - (slot + 1) / 2 = (14 - slot) / 2 := by omega
    have half : slot % 2 = (14 - slot) % 2 := by omega
    rw [lastKey, slots256, ready_to_decrypt_256, iterate_undone undone (by omega), group, half,
      keys256]
  have recovered := layers.decrypt_encrypt_of slots (view input)
  rw [← encrypted] at recovered
  refine Prod.ext (view_injective (text.trans recovered)) ?_
  rw [left, lastKey, ready_to_decrypt_256, undone.iterate 7]

/-- And the other way round. -/
theorem encrypt_decrypt_256 (input : ByteBlock) (key : Vector Byte 32) :
    aesEncrypt256 (aesDecrypt256 input key).1 (aesDecrypt256 input key).2 = (input, key) := by
  obtain ⟨decrypted, firstKey⟩ := aes_decrypt_256_eq input key
  obtain ⟨text, left⟩ := aes_encrypt_256_eq (aesDecrypt256 input key).1 (aesDecrypt256 input key).2
  have redone : Function.LeftInverse updateEncryptKey256 updateDecryptKey256 :=
    fun s => (update_256_undone s).2
  have slots (slot : Nat) (bounded : slot ≤ 14) :
      slots256 key slot = keys256 (aesDecrypt256 input key).2 (14 - slot) := by
    have group : 7 - (14 - slot) / 2 = (slot + 1) / 2 := by omega
    have half : (14 - slot) % 2 = slot % 2 := by omega
    rw [firstKey, keys256, ready_to_encrypt_256, iterate_undone redone (by omega), group, half,
      slots256]
  have recovered := layers.encrypt_decrypt_of slots (view input)
  rw [← decrypted] at recovered
  refine Prod.ext (view_injective (text.trans recovered)) ?_
  rw [left, firstKey, ready_to_encrypt_256, redone.iterate 7]

/-- `aes_encrypt_256` enciphers by the standard and leaves the last group of the schedule.
Each of the two functions recovers text and key from what the other one puts out. -/
theorem on_the_fly_256_exact (input : ByteBlock) (key : Vector Byte 32) :
    ofState (view (aesEncrypt256 input key).1) = cipherOf (keyWords key) (ofState (view input)) ∧
      (∀ i, i < 8 → word (aesEncrypt256 input key).2 i = keySchedule (keyWords key) (56 + i)) ∧
      aesDecrypt256 (aesEncrypt256 input key).1 (aesEncrypt256 input key).2 = (input, key) ∧
      aesEncrypt256 (aesDecrypt256 input key).1 (aesDecrypt256 input key).2 = (input, key) := by
  obtain ⟨encrypted, lastKey⟩ := aes_encrypt_256_eq input key
  have schedule (r : Nat) : keys256 key r = roundKeyOf (keyWords key) r := by
    funext c
    have position : 8 * (r / 2) + (4 * (r % 2) + c.val) = 4 * r + c.val := by omega
    have held := (group_256 key (r / 2)).2 (4 * (r % 2) + c.val) (by omega)
    rw [position] at held
    exact (words_chunk _ _ c).trans held
  refine ⟨?_, ?_, decrypt_encrypt_256 input key, encrypt_decrypt_256 input key⟩
  · have length : (keyWords key).length = 8 := by simp [keyWords]
    rw [encrypted, cipherOf, to_state_of_state, length, funext schedule]
  · rw [lastKey]
    exact (group_256 key 7).2

end AesCore.ByteCipher
