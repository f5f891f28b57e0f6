import AesCore.Fips197

/-!
# FIPS-197 for every key length

The standard's key schedule for a key of `nk` words, and the cipher with `nk + 6`
rounds that uses it. The word before a new one is rotated, substituted and given a
constant once in every `nk` words; keys of more than six words substitute it a
second time. Keys of four words give the schedule and the cipher of the hardware.

This module contains nothing translated from code. The software of the repository
expands its keys inside the rounds or into an array, from keys of four, six and
eight words.
-/

namespace AesCore.Fips197

/-- What word `r` of group `q` of the schedule adds, from the word before it. Only keys of
more than six words substitute in the middle of a group. -/
def scheduleTemp (nk q r : Nat) (word : Word) : Word :=
  if r = 0 then subWord (rotWord word) ^^^ rcon q
  else if 6 < nk ∧ r = 4 then subWord word
  else word

/-- Word `i` of the schedule of a key of any length. The recursion goes back one word and
one group; a key without words has a schedule of zeros. -/
def keySchedule (key : List Word) (i : Nat) : Word :=
  if i < key.length ∨ key.length = 0 then key.getD i 0#32
  else
    keySchedule key (i - key.length) ^^^
      scheduleTemp key.length (i / key.length) (i % key.length) (keySchedule key (i - 1))
termination_by i
decreasing_by all_goals omega

/-- The four words that round `j` adds, whatever the size of the groups is in which the
schedule was computed. -/
def roundKeyOf (key : List Word) (j : Nat) : Fin 4 → Word :=
  fun c => keySchedule key (4 * j + c.val)

/-- Cipher with a key of any length. A key of four words has ten rounds, and each further
word adds one. -/
def cipherOf (key : List Word) (text : Block) : Block :=
  ofState (layers.encrypt (key.length + 5) (roundKeyOf key) (toState text))

/-- InvCipher with a key of any length, with the round keys from the last one down. -/
def invCipherOf (key : List Word) (text : Block) : Block :=
  ofState (layers.decrypt (key.length + 5) (fun slot => roundKeyOf key (key.length + 6 - slot))
    (toState text))

/-- The four words of a 128-bit key, in the order of the standard. -/
def blockWords (key : Block) : List Word :=
  [blockWord key 0, blockWord key 1, blockWord key 2, blockWord key 3]

variable (key : List Word)

/-- The schedule starts with the words of the key, which form its first group. -/
theorem key_schedule_first {i : Nat} (inside : i < key.length) :
    keySchedule key i = key.getD i 0#32 := by
  rw [keySchedule, if_pos (Or.inl inside)]

/-- Every other word is the sum of the word one group earlier and of what the word before it
contributes. This is the recursion as the standard writes it. -/
theorem key_schedule_later (i : Nat) (nonempty : 0 < key.length) :
    keySchedule key (i + key.length) = keySchedule key i ^^^
      scheduleTemp key.length (i / key.length + 1) (i % key.length)
        (keySchedule key (i + key.length - 1)) := by
  have outside : ¬(i + key.length < key.length ∨ key.length = 0) := by omega
  rw [keySchedule, if_neg outside, Nat.add_sub_cancel, Nat.add_mod_right,
    Nat.add_div_right i nonempty]

/-- A word inside a group adds the word before it, unless it is the fifth word of a long
key. -/
theorem key_schedule_plain {i : Nat} (inside : i % key.length ≠ 0)
    (plain : ¬(6 < key.length ∧ i % key.length = 4)) (nonempty : 0 < key.length) :
    keySchedule key (i + key.length) =
      keySchedule key i ^^^ keySchedule key (i + key.length - 1) := by
  rw [key_schedule_later key i nonempty, scheduleTemp, if_neg inside, if_neg plain]

/-- The first word of a group adds the last word of the group before it, rotated and
substituted, with the constant of the group. -/
theorem key_schedule_rotated {i : Nat} (start : i % key.length = 0) (nonempty : 0 < key.length) :
    keySchedule key (i + key.length) = keySchedule key i ^^^
      (subWord (rotWord (keySchedule key (i + key.length - 1))) ^^^ rcon (i / key.length + 1)) := by
  rw [key_schedule_later key i nonempty, scheduleTemp, if_pos start]

/-- The fifth word of a group of a long key adds the word before it, substituted but not
rotated. -/
theorem key_schedule_substituted {i : Nat} (fifth : i % key.length = 4) (long : 6 < key.length) :
    keySchedule key (i + key.length) =
      keySchedule key i ^^^ subWord (keySchedule key (i + key.length - 1)) := by
  have inside : i % key.length ≠ 0 := by omega
  rw [key_schedule_later key i (by omega), scheduleTemp, if_neg inside, if_pos ⟨long, fifth⟩]

/-- A window of one group of the schedule that is brought forward word by word, each new
word from the one before it, becomes the next group. -/
theorem key_schedule_group {key : List Word} {nk q : Nat} {old new : Nat → Word}
    (length : key.length = nk) (held : ∀ i, i < nk → old i = keySchedule key (nk * q + i))
    (forward : ∀ i, i < nk → new i =
      old i ^^^ scheduleTemp nk (q + 1) i (if i = 0 then old (nk - 1) else new (i - 1)))
    {i : Nat} (inside : i < nk) : new i = keySchedule key (nk * (q + 1) + i) := by
  subst length
  have next {i : Nat} (inside : i < key.length)
      (previous : (if i = 0 then old (key.length - 1) else new (i - 1)) =
        keySchedule key (key.length * q + i + key.length - 1)) :
      new i = keySchedule key (key.length * (q + 1) + i) := by
    have position : key.length * (q + 1) + i = key.length * q + i + key.length := by
      rw [Nat.mul_succ, Nat.add_right_comm]
    have quotient : (key.length * q + i) / key.length = q := by
      rw [Nat.mul_add_div (by omega), Nat.div_eq_of_lt inside, Nat.add_zero]
    have remainder : (key.length * q + i) % key.length = i := by
      rw [Nat.mul_add_mod, Nat.mod_eq_of_lt inside]
    rw [forward i inside, previous, held i inside, position,
      key_schedule_later key _ (by omega), quotient, remainder]
  induction i with
  | zero =>
    have last : key.length * q + 0 + key.length - 1 = key.length * q + (key.length - 1) := by omega
    refine next inside ((if_pos rfl).trans ?_)
    rw [last]
    exact held (key.length - 1) (by omega)
  | succ i inductionHypothesis =>
    have before : key.length * q + (i + 1) + key.length - 1 = key.length * (q + 1) + i := by
      rw [Nat.mul_succ]
      omega
    refine next inside ((if_neg (Nat.succ_ne_zero i)).trans ?_)
    rw [before]
    exact inductionHypothesis (by omega)

/-- For four words this is the schedule of AES-128, which the hardware computes. -/
theorem key_schedule_block_words (key : Block) (i : Nat) :
    keySchedule (blockWords key) i = keyExpansion key i := by
  induction i using Nat.strongRecOn with
  | ind i inductionHypothesis =>
    match i with
    | 0 | 1 | 2 | 3 => exact key_schedule_first (blockWords key) (by simp [blockWords])
    | i + 4 =>
      have recurrence := key_schedule_later (blockWords key) i (Nat.succ_pos 3)
      change keySchedule (blockWords key) (i + 4) = keySchedule (blockWords key) i ^^^
        scheduleTemp 4 (i / 4 + 1) (i % 4) (keySchedule (blockWords key) (i + 3)) at recurrence
      have remainder : (i + 4) % 4 = i % 4 := Nat.add_mod_right i 4
      have quotient : (i + 4) / 4 = i / 4 + 1 := Nat.add_div_right i (by decide)
      have short : ¬(6 < 4 ∧ i % 4 = 4) := by omega
      rw [recurrence, inductionHypothesis i (by omega), inductionHypothesis (i + 3) (by omega),
        keyExpansion, remainder, quotient, scheduleTemp, if_neg short]

/-- For four words this is the cipher of the hardware, so programs and cores can be
compared. -/
theorem cipher_of_block_words (key text : Block) :
    cipherOf (blockWords key) text = cipher key text := by
  have keys : roundKeyOf (blockWords key) = roundKey key := by
    funext j c
    exact key_schedule_block_words key (4 * j + c.val)
  rw [cipherOf, keys]
  rfl

/-- InvCipher undoes Cipher for every key length, key and block. The round keys need no
property for this. -/
theorem inv_cipher_of_cipher_of (key : List Word) (text : Block) :
    invCipherOf key (cipherOf key text) = text := by
  rw [invCipherOf, cipherOf, to_state_of_state]
  have undone := layers.decrypt_encrypt (key.length + 5) (roundKeyOf key) (toState text)
  rw [undone, of_state_to_state]

end AesCore.Fips197
