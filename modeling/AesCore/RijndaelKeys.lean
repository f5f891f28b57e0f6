import AesCore.KeyLengths
import AesCore.RijndaelRounds

/-!
# The key schedules of the word-oriented cipher

`AES_set_encrypt_key` writes the schedule of a key of 128, 192 or 256 bits into the array
`rd_key`. Its three loops differ in the length of a group and are left in the middle of one.
`AES_set_decrypt_key` starts from this schedule, reverses the order of the round keys in
place and undoes the mixing of all but the outer two, so that `AES_decrypt` can have the
shape of `AES_encrypt`.

A null pointer is `none`. The key is kept apart from the buffers. What the functions print
is left out, and with it the reads that only printing makes.
-/

namespace AesCore.Rijndael

open ByteField (Byte)
open Fips197
open Fallible (Returns returns_some returns_passes passes)

/-- Struct `aes_key_struct`: the schedule and the number of rounds. -/
structure AesKey where
  rdKey : Schedule
  rounds : Nat
  deriving DecidableEq

/-- The statement `rk[i] = GETU32(userKey + 4 * i)`. -/
def load (mem : Memory) (userKey i : Nat) (rk : Schedule) : Option Schedule :=
  write rk i (getU32 mem (userKey + 4 * i))

/-- The statement `rk[i] = rk[a] ^ rk[b]`. In the source the pointer `rk` moves on with each
pass; the indices count from the start of the array here. -/
def assignSum (rk : Schedule) (i a b : Nat) : Option Schedule := do
  let x ← read rk a
  let y ← read rk b
  write rk i (x ^^^ y)

/-- The assignment to `rk[i]` from `rk[a]`, `temp = rk[b]` and `rcon[j]`. The bytes are
looked up rotated, and the first byte, which needs no mask as long as the word is a widened
one, comes last. -/
def assignRotated (rk : Schedule) (i a b j : Nat) : Option Schedule := do
  let temp ← read rk b
  let x ← read rk a
  let y ← maskedSum te4 ((temp >>> 16) &&& 0xff#64) ((temp >>> 8) &&& 0xff#64) (temp &&& 0xff#64)
    (temp >>> 24)
  let constant ← rcon[j]?
  write rk i (x ^^^ y ^^^ constant.setWidth 64)

/-- The assignment to `rk[i]` from `rk[a]` and `temp = rk[b]` without a rotation. -/
def assignSubstituted (rk : Schedule) (i a b : Nat) : Option Schedule := do
  let temp ← read rk b
  let x ← read rk a
  let y ← maskedSum te4 (temp >>> 24) ((temp >>> 16) &&& 0xff#64) ((temp >>> 8) &&& 0xff#64)
    (temp &&& 0xff#64)
  write rk i (x ^^^ y)

/-- The first four assignments of pass `i` of a loop whose groups have `nk` words. They are
followed by the test whether this pass is the last. -/
def firstFour (nk i : Nat) (rk : Schedule) : Option Schedule := do
  let o := nk * i
  let rk ← assignRotated rk (o + nk) o (o + nk - 1) i
  let rk ← assignSum rk (o + nk + 1) (o + 1) (o + nk)
  let rk ← assignSum rk (o + nk + 2) (o + 2) (o + nk + 1)
  assignSum rk (o + nk + 3) (o + 3) (o + nk + 2)

/-- The other two assignments of a pass for 192 bits, which the last pass does not reach. -/
def lastTwo (i : Nat) (rk : Schedule) : Option Schedule := do
  let o := 6 * i
  let rk ← assignSum rk (o + 10) (o + 4) (o + 9)
  assignSum rk (o + 11) (o + 5) (o + 10)

/-- The other four assignments of a pass for 256 bits, which the last pass does not
reach. -/
def lastFour (i : Nat) (rk : Schedule) : Option Schedule := do
  let o := 8 * i
  let rk ← assignSubstituted rk (o + 12) (o + 4) (o + 11)
  let rk ← assignSum rk (o + 13) (o + 5) (o + 12)
  let rk ← assignSum rk (o + 14) (o + 6) (o + 13)
  assignSum rk (o + 15) (o + 7) (o + 14)

/-- The loop for 128 bits, left at the end of its tenth pass. -/
def expand128 (rk : Schedule) : Option Schedule := passes (firstFour 4) rk 10

/-- The loop for 192 bits, left in its eighth pass, in the middle of a group. -/
def expand192 (rk : Schedule) : Option Schedule := do
  let rk ← passes (fun i rk => (firstFour 6 i rk).bind (lastTwo i)) rk 7
  firstFour 6 7 rk

/-- The loop for 256 bits, left in its seventh pass, in the middle of a group. -/
def expand256 (rk : Schedule) : Option Schedule := do
  let rk ← passes (fun i rk => (firstFour 8 i rk).bind (lastFour i)) rk 6
  firstFour 8 6 rk

/-- The four words that are read for every length. -/
def loadFour (mem : Memory) (userKey : Nat) (rk : Schedule) : Option Schedule := do
  let rk ← load mem userKey 0 rk
  let rk ← load mem userKey 1 rk
  let rk ← load mem userKey 2 rk
  load mem userKey 3 rk

/-- Two further words, which only longer keys have. -/
def loadTwo (mem : Memory) (userKey i : Nat) (rk : Schedule) : Option Schedule := do
  let rk ← load mem userKey i rk
  load mem userKey (i + 1) rk

/-- What `AES_set_encrypt_key` writes to `rd_key`. The words are read from the key as the
lengths ask for them, and a loop begins when all of its first group are there. Each of the
three loops ends with a return, so that what the source prints behind them is never
reached. -/
def encryptSchedule (mem : Memory) (userKey : Nat) (bits : Int) (rk : Schedule) :
    Option Schedule := do
  let rk ← loadFour mem userKey rk
  if bits = 128 then expand128 rk
  else
    let rk ← loadTwo mem userKey 4 rk
    if bits = 192 then expand192 rk
    else
      let rk ← loadTwo mem userKey 6 rk
      expand256 rk

/-- Function `AES_set_encrypt_key`: the status it returns and the key it leaves. The source
prints `userKey` as a string before it tests the pointers, which is left out here: what is
said of a null pointer is the effect of the test alone. -/
def aesSetEncryptKey (mem : Memory) (userKey : Option Nat) (bits : Int) (key : Option AesKey) :
    Option (Int × Option AesKey) :=
  match userKey, key with
  | some userKey, some key =>
    if bits ≠ 128 ∧ bits ≠ 192 ∧ bits ≠ 256 then some (-2, some key)
    else do
      let rounds := if bits = 128 then 10 else if bits = 192 then 12 else 14
      let rk ← encryptSchedule mem userKey bits key.rdKey
      return (0, some ⟨rk, rounds⟩)
  | _, _ => some (-1, key)

/-- `temp = rk[i]; rk[i] = rk[j]; rk[j] = temp`. -/
def swapWords (rk : Schedule) (i j : Nat) : Option Schedule := do
  let temp ← read rk i
  let x ← read rk j
  let rk ← write rk i x
  write rk j temp

/-- The body of the loop that reverses the round keys: four words of each change places. -/
def swapKeys (rk : Schedule) (i j : Nat) : Option Schedule := do
  let rk ← swapWords rk i j
  let rk ← swapWords rk (i + 1) (j + 1)
  let rk ← swapWords rk (i + 2) (j + 2)
  swapWords rk (i + 3) (j + 3)

/-- The loop itself, from `i` and `j` on. The two indices approach each other by eight in
each pass. -/
def reverseKeys (rk : Schedule) (i j : Nat) : Option Schedule :=
  if i < j then (swapKeys rk i j).bind fun rk => reverseKeys rk (i + 4) (j - 4)
  else some rk
termination_by j - i

/-- The word that replaces `x`: the entries of `Td0` to `Td3` at its substituted bytes.
`Te4` substitutes first because the tables of the inverse cipher substitute back. -/
def unmixed (x : ULong) : Option ULong := do
  let y0 ← lookup te4 (x >>> 24)
  let y1 ← lookup te4 ((x >>> 16) &&& 0xff#64)
  let y2 ← lookup te4 ((x >>> 8) &&& 0xff#64)
  let y3 ← lookup te4 (x &&& 0xff#64)
  tableSum td0 td1 td2 td3 (y0 &&& 0xff#64) (y1 &&& 0xff#64) (y2 &&& 0xff#64) (y3 &&& 0xff#64)

/-- One assignment of the loop that undoes the mixing. -/
def unmixAt (rk : Schedule) (i : Nat) : Option Schedule := do
  let x ← read rk i
  let y ← unmixed x
  write rk i y

/-- The body of this loop: the four words of one round key. -/
def unmixKey (rk : Schedule) (i : Nat) : Option Schedule := do
  let rk ← unmixAt rk i
  let rk ← unmixAt rk (i + 1)
  let rk ← unmixAt rk (i + 2)
  unmixAt rk (i + 3)

/-- The loop itself. It starts at the second round key and ends before the last one. -/
def unmixKeys (rk : Schedule) (rounds : Nat) : Option Schedule :=
  passes (fun i rk => unmixKey rk (4 * (i + 1))) rk (rounds - 1)

/-- Function `AES_set_decrypt_key`: the status it returns and the key it leaves. A negative
status of `AES_set_encrypt_key` is handed on before the key is touched again. -/
def aesSetDecryptKey (mem : Memory) (userKey : Option Nat) (bits : Int) (key : Option AesKey) :
    Option (Int × Option AesKey) := do
  let (status, key) ← aesSetEncryptKey mem userKey bits key
  if status < 0 then return (status, key)
  else
    let key ← key
    let rk ← reverseKeys key.rdKey 0 (4 * key.rounds)
    let rk ← unmixKeys rk key.rounds
    return (0, some ⟨rk, key.rounds⟩)

/-!
## The encryption schedule
-/

/-- The words of a key in a buffer, as the standard writes them. -/
def keyWords (mem : Memory) (p nk : Nat) : List Word :=
  (List.range nk).map fun i => wordAt mem (p + 4 * i)

/-- The first `m` words of the schedule are in place, as widened words. -/
def Expanded (key : List Word) (m : Nat) (rk : Schedule) : Prop :=
  ∀ i, i < m → read rk i = some (widen (keySchedule key i))

/-- The words of an array after an assignment: this word is the new one, and every other is
as before. -/
theorem write_returns (rk : Schedule) {i : Nat} (inside : i < 60) (w : ULong) :
    Returns (write rk i w) fun after =>
      ∀ k, read after k = if k = i then some w else read rk k := by
  rw [write, if_pos inside]
  refine returns_some fun k => ?_
  by_cases same : k = i
  · subst same
    simp [read, inside]
  · simp [read, same, Ne.symm same]

section Schedule
variable {key : List Word} {m : Nat} {rk : Schedule}

/-- The next word of the schedule is written, and those before it stay. -/
theorem write_expanded (expanded : Expanded key m rk) (inside : m < 60) {w : ULong}
    (word : w = widen (keySchedule key m)) : Returns (write rk m w) (Expanded key (m + 1)) := by
  refine (write_returns rk inside w).mono fun after words i bounded => ?_
  rw [words]
  by_cases last : i = m
  · rw [if_pos last, word, last]
  · rw [if_neg last, expanded i (by omega)]

/-- Inside a group the schedule adds two words: the one a group earlier and the one
before. -/
theorem assign_sum_expanded (expanded : Expanded key m rk) (inside : m < 60) {i : Nat}
    (nonempty : 0 < key.length) (position : m = i + key.length) (within : i % key.length ≠ 0)
    (plain : ¬(6 < key.length ∧ i % key.length = 4)) :
    Returns (assignSum rk m i (m - 1)) (Expanded key (m + 1)) := by
  rw [assignSum, expanded i (by omega), expanded (m - 1) (by omega)]
  refine write_expanded expanded inside ?_
  rw [widen_xor, position, key_schedule_plain key within plain nonempty]

/-- The bytes of a rotated word, substituted. The four masks put them where the rotation
does. -/
theorem rotated_found (w : Word) : maskedSum te4 ((widen w >>> 16) &&& 0xff#64)
    ((widen w >>> 8) &&& 0xff#64) (widen w &&& 0xff#64) (widen w >>> 24) =
      some (widen (subWord (rotWord w))) := by
  obtain ⟨first, second, third, fourth⟩ := lookup_bytes te4 w
  rw [masked_sum_found second third fourth first, word_byte_te4, word_byte_te4, word_byte_te4,
    word_byte_te4, subWord, word_byte_rot_word, word_byte_rot_word, word_byte_rot_word,
    word_byte_rot_word]
  rfl

/-- At the start of a group it adds the last word of the group before, rotated and
substituted, and the constant of this group, of which the table has ten. -/
theorem assign_rotated_expanded (expanded : Expanded key m rk) (inside : m < 60) {q : Nat}
    (nonempty : 0 < key.length) (position : m = key.length * q + key.length) (early : q < 10) :
    Returns (assignRotated rk m (key.length * q) (m - 1) q) (Expanded key (m + 1)) := by
  have start : key.length * q % key.length = 0 := Nat.mul_mod_right _ _
  have group : key.length * q / key.length = q := Nat.mul_div_cancel_left q nonempty
  rw [assignRotated, expanded (m - 1) (by omega), expanded (key.length * q) (by omega)]
  simp only [Option.bind_eq_bind, Option.bind_some, rotated_found, rcon_eq q early]
  refine write_expanded expanded inside ?_
  change widen _ ^^^ widen _ ^^^ widen _ = _
  rw [widen_xor, widen_xor, position, key_schedule_rotated key start nonempty, group,
    BitVec.xor_assoc]

/-- In the middle of a long group it adds the word before, substituted. -/
theorem assign_substituted_expanded (expanded : Expanded key m rk) (inside : m < 60) {i : Nat}
    (long : 6 < key.length) (position : m = i + key.length) (fifth : i % key.length = 4) :
    Returns (assignSubstituted rk m i (m - 1)) (Expanded key (m + 1)) := by
  rw [assignSubstituted, expanded (m - 1) (by omega), expanded i (by omega)]
  simp only [Option.bind_eq_bind, Option.bind_some, masked_sum_finds word_byte_te4 _ _ _ _]
  refine write_expanded expanded inside ?_
  rw [widen_xor, position, key_schedule_substituted key fifth long]
  rfl

/-- Where the words of group `q` are: the remainder by the length of a group is the place
inside it. -/
theorem group_remainder {q r : Nat} (inside : r < key.length) :
    (key.length * q + r) % key.length = r := by
  rw [Nat.mul_add_mod, Nat.mod_eq_of_lt inside]

/-- The first four words of a group, for every length. The fourth is no middle of a long
group yet. -/
theorem first_four_expanded {nk q : Nat} (length : key.length = nk) (long : 4 ≤ nk)
    (early : q < 10) (inside : nk * q + nk + 3 < 60)
    (expanded : Expanded key (nk * q + nk) rk) :
    Returns (firstFour nk q rk) (Expanded key (nk * q + nk + 4)) := by
  subst length
  have within (r : Nat) (small : 1 ≤ r ∧ r ≤ 3) :
      (key.length * q + r) % key.length ≠ 0 ∧
        ¬(6 < key.length ∧ (key.length * q + r) % key.length = 4) := by
    rw [group_remainder (by omega)]
    omega
  have first := assign_rotated_expanded expanded (by omega) (by omega) rfl early
  refine first.bind fun rk expanded => ?_
  have second := assign_sum_expanded expanded (by omega) (i := key.length * q + 1) (by omega)
    (by omega) (within 1 (by omega)).1 (within 1 (by omega)).2
  refine second.bind fun rk expanded => ?_
  have third := assign_sum_expanded expanded (by omega) (i := key.length * q + 2) (by omega)
    (by omega) (within 2 (by omega)).1 (within 2 (by omega)).2
  refine third.bind fun rk expanded => ?_
  exact assign_sum_expanded expanded (by omega) (by omega) (by omega) (within 3 (by omega)).1
    (within 3 (by omega)).2

/-- The rest of a group of six words, after which the next group begins. -/
theorem last_two_expanded {q : Nat} (length : key.length = 6) (inside : 6 * q + 11 < 60)
    (expanded : Expanded key (6 * q + 10) rk) :
    Returns (lastTwo q rk) (Expanded key (6 * (q + 1) + 6)) := by
  have plain (r : Nat) (small : 4 ≤ r ∧ r ≤ 5) : (6 * q + r) % key.length ≠ 0 ∧
      ¬(6 < key.length ∧ (6 * q + r) % key.length = 4) := by
    rw [length]
    omega
  have first := assign_sum_expanded expanded (by omega) (i := 6 * q + 4) (by omega) (by omega)
    (plain 4 (by omega)).1 (plain 4 (by omega)).2
  refine first.bind fun rk expanded => ?_
  exact assign_sum_expanded expanded (by omega) (by omega) (by omega) (plain 5 (by omega)).1
    (plain 5 (by omega)).2

/-- The rest of a group of eight words, after which the next group begins. -/
theorem last_four_expanded {q : Nat} (length : key.length = 8) (inside : 8 * q + 15 < 60)
    (expanded : Expanded key (8 * q + 12) rk) :
    Returns (lastFour q rk) (Expanded key (8 * (q + 1) + 8)) := by
  have plain (r : Nat) (small : 5 ≤ r ∧ r ≤ 7) : (8 * q + r) % key.length ≠ 0 ∧
      ¬(6 < key.length ∧ (8 * q + r) % key.length = 4) := by
    rw [length]
    omega
  have fifth : (8 * q + 4) % key.length = 4 := by
    rw [length]
    omega
  have first := assign_substituted_expanded expanded (by omega) (by omega) (by omega) fifth
  refine first.bind fun rk expanded => ?_
  have second := assign_sum_expanded expanded (by omega) (i := 8 * q + 5) (by omega) (by omega)
    (plain 5 (by omega)).1 (plain 5 (by omega)).2
  refine second.bind fun rk expanded => ?_
  have third := assign_sum_expanded expanded (by omega) (i := 8 * q + 6) (by omega) (by omega)
    (plain 6 (by omega)).1 (plain 6 (by omega)).2
  refine third.bind fun rk expanded => ?_
  exact assign_sum_expanded expanded (by omega) (by omega) (by omega) (plain 7 (by omega)).1
    (plain 7 (by omega)).2

/-- The whole schedule for 128 bits: eleven round keys. -/
theorem expand_128_expanded (length : key.length = 4) (expanded : Expanded key 4 rk) :
    Returns (expand128 rk) (Expanded key 44) :=
  returns_passes (fun q => Expanded key (4 * q + 4)) expanded
    fun q inside _ expanded =>
      first_four_expanded length (by omega) (by omega) (by omega) expanded

/-- The whole schedule for 192 bits: thirteen round keys, the last of which ends in the
middle of a group. -/
theorem expand_192_expanded (length : key.length = 6) (expanded : Expanded key 6 rk) :
    Returns (expand192 rk) (Expanded key 52) := by
  have loop : Returns (passes (fun i rk => (firstFour 6 i rk).bind (lastTwo i)) rk 7)
      (Expanded key 48) :=
    returns_passes (fun q => Expanded key (6 * q + 6)) expanded
      fun q inside _ expanded =>
        (first_four_expanded length (by omega) (by omega) (by omega) expanded).bind
          fun _ expanded => last_two_expanded length (by omega) expanded
  exact loop.bind fun _ expanded =>
    first_four_expanded length (by omega) (by omega) (by omega) expanded

/-- The whole schedule for 256 bits: fifteen round keys, the last of which ends in the
middle of a group. -/
theorem expand_256_expanded (length : key.length = 8) (expanded : Expanded key 8 rk) :
    Returns (expand256 rk) (Expanded key 60) := by
  have loop : Returns (passes (fun i rk => (firstFour 8 i rk).bind (lastFour i)) rk 6)
      (Expanded key 56) :=
    returns_passes (fun q => Expanded key (8 * q + 8)) expanded
      fun q inside _ expanded =>
        (first_four_expanded length (by omega) (by omega) (by omega) expanded).bind
          fun _ expanded => last_four_expanded length (by omega) expanded
  exact loop.bind fun _ expanded =>
    first_four_expanded length (by omega) (by omega) (by omega) expanded

end Schedule

section Loading
variable (mem : Memory) (userKey : Nat) {nk : Nat} {rk : Schedule}

/-- The length of a key, in words. -/
theorem key_words_length (nk : Nat) : (keyWords mem userKey nk).length = nk := by
  rw [keyWords, List.length_map, List.length_range]

/-- A word of the key is a word of its schedule. -/
theorem load_expanded {i : Nat} (expanded : Expanded (keyWords mem userKey nk) i rk)
    (inside : i < nk) (bounded : i < 60) :
    Returns (load mem userKey i rk) (Expanded (keyWords mem userKey nk) (i + 1)) := by
  have within : i < (keyWords mem userKey nk).length := by rw [key_words_length]; exact inside
  refine write_expanded expanded bounded ?_
  rw [get_u32_eq, key_schedule_first _ within]
  simp [keyWords, inside]

/-- Two further words of the key. -/
theorem load_two_expanded {i : Nat} (expanded : Expanded (keyWords mem userKey nk) i rk)
    (inside : i + 1 < nk) (bounded : i + 1 < 60) :
    Returns (loadTwo mem userKey i rk) (Expanded (keyWords mem userKey nk) (i + 2)) :=
  (load_expanded mem userKey expanded (by omega) (by omega)).bind
    fun _ expanded => load_expanded mem userKey expanded inside bounded

/-- The first four words of the key. -/
theorem load_four_expanded (nk : Nat) (rk : Schedule) (inside : 4 ≤ nk) :
    Returns (loadFour mem userKey rk) (Expanded (keyWords mem userKey nk) 4) := by
  have none : Expanded (keyWords mem userKey nk) 0 rk := fun i bounded => by omega
  have first := load_expanded mem userKey none (by omega) (by omega)
  rw [loadFour]
  refine first.bind fun rk expanded => ?_
  have second := load_expanded mem userKey expanded (by omega) (by omega)
  refine second.bind fun rk expanded => ?_
  have third := load_expanded mem userKey expanded (by omega) (by omega)
  refine third.bind fun rk expanded => ?_
  exact load_expanded mem userKey expanded (by omega) (by omega)

/-- The lengths that are accepted, and the words of their keys. -/
theorem length_cases {bits : Int} {nk : Nat}
    (length : (bits, nk) ∈ [((128 : Int), 4), (192, 6), (256, 8)]) :
    bits = 128 ∧ nk = 4 ∨ bits = 192 ∧ nk = 6 ∨ bits = 256 ∧ nk = 8 := by
  simpa using length

/-- The schedule of a key of `nk` words: four words for each round, and four more. Nothing
of it depends on what the array held before. -/
theorem encrypt_schedule_expanded {bits : Int} (rk : Schedule)
    (length : (bits, nk) ∈ [((128 : Int), 4), (192, 6), (256, 8)]) :
    Returns (encryptSchedule mem userKey bits rk)
      (Expanded (keyWords mem userKey nk) (4 * (nk + 7))) := by
  have words := key_words_length mem userKey nk
  rw [encryptSchedule]
  obtain ⟨rfl, rfl⟩ | ⟨rfl, rfl⟩ | ⟨rfl, rfl⟩ := length_cases length
  · have four := load_four_expanded mem userKey 4 rk (by decide)
    exact four.bind fun rk expanded => expand_128_expanded words expanded
  · have four := load_four_expanded mem userKey 6 rk (by decide)
    refine four.bind fun rk expanded => ?_
    rw [if_neg (by decide)]
    have six := load_two_expanded mem userKey expanded (by decide) (by decide)
    exact six.bind fun rk expanded => expand_192_expanded words expanded
  · have four := load_four_expanded mem userKey 8 rk (by decide)
    refine four.bind fun rk expanded => ?_
    rw [if_neg (by decide)]
    have six := load_two_expanded mem userKey expanded (by decide) (by decide)
    refine six.bind fun rk expanded => ?_
    rw [if_neg (by decide)]
    have eight := load_two_expanded mem userKey expanded (by decide) (by decide)
    exact eight.bind fun rk expanded => expand_256_expanded words expanded

end Loading

/-- The round keys of `rounds` rounds are in place, four words each. -/
def Keyed (rounds : Nat) (keys : Nat → Fin 4 → Word) (rk : Schedule) : Prop :=
  ∀ r, r ≤ rounds → Holds rk (4 * r) (keys r)

/-- A schedule is one of round keys. -/
theorem keyed_of_expanded {key : List Word} {rounds : Nat} {rk : Schedule}
    (expanded : Expanded key (4 * (rounds + 1)) rk) : Keyed rounds (roundKeyOf key) rk :=
  fun r bounded c => expanded (4 * r + c.val) (by omega)

/-- For a length that is accepted the key holds the round keys of its schedule, and the
status is zero. -/
theorem set_encrypt_key_returns (mem : Memory) (userKey : Nat) {bits : Int} {nk : Nat}
    (key : AesKey) (length : (bits, nk) ∈ [((128 : Int), 4), (192, 6), (256, 8)]) :
    ∃ after, aesSetEncryptKey mem (some userKey) bits (some key) = some (0, some after) ∧
      after.rounds = nk + 6 ∧
        Keyed (nk + 6) (roundKeyOf (keyWords mem userKey nk)) after.rdKey := by
  obtain ⟨rk, same, expanded⟩ := encrypt_schedule_expanded mem userKey key.rdKey length
  have sizes : ¬(bits ≠ 128 ∧ bits ≠ 192 ∧ bits ≠ 256) ∧
      (if bits = 128 then 10 else if bits = 192 then 12 else 14) = nk + 6 := by
    obtain ⟨rfl, rfl⟩ | ⟨rfl, rfl⟩ | ⟨rfl, rfl⟩ := length_cases length <;> decide
  refine ⟨⟨rk, nk + 6⟩, ?_, rfl, keyed_of_expanded expanded⟩
  simp only [aesSetEncryptKey, if_neg sizes.1, same, sizes.2]
  rfl

/-- Any other length is refused, and the key is not touched. -/
theorem set_encrypt_key_refuses (mem : Memory) (userKey : Nat) {bits : Int} (key : AesKey)
    (other : bits ∉ [(128 : Int), 192, 256]) :
    aesSetEncryptKey mem (some userKey) bits (some key) = some (-2, some key) := by
  simp only [List.mem_cons, List.not_mem_nil, or_false, not_or] at other
  simp only [aesSetEncryptKey, if_pos other]

/-!
## The decryption schedule
-/

/-- The inverse mixing of one word, taken as a column. -/
def unmixWord (w : Word) : Word :=
  let f := ByteField.invMixColumn (wordByte w)
  ofBytes (f 0) (f 1) (f 2) (f 3)

/-- The bytes of such a word are those of the column that was mixed inversely. -/
theorem word_byte_unmix_word (w : Word) (r : Fin 4) :
    wordByte (unmixWord w) r = ByteField.invMixColumn (wordByte w) r :=
  word_byte_of_bytes _ r

/-- A round key may be added after the inverse mixing, if its words are mixed inversely: the
mixing is additive. -/
theorem unmix_add (key : Fin 4 → Word) (state : State) :
    layers.unmix (layers.add key state) =
      layers.add (fun c => unmixWord (key c)) (layers.unmix state) := by
  funext r c
  have linear := Circulant.circulant_add (fun i => (ByteField.coefficient_linear i).2)
    (fun i => state i c) (wordByte (key c)) r
  refine linear.trans (congrArg (layers.unmix state r c ^^^ ·) ?_)
  exact (word_byte_unmix_word (key c) r).symm

/-- `AES_set_decrypt_key` looks its substituted bytes up where they are substituted back, so
only the inverse mixing remains. -/
theorem unmixed_found (w : Word) : unmixed (widen w) = some (widen (unmixWord w)) := by
  obtain ⟨first, second, third, fourth⟩ := lookup_bytes te4 w
  have entry (table : Table) (b : Byte) :
      lookup table (widen (te4 b) &&& 0xff#64) = some (widen (table (ByteField.sBox b))) := by
    rw [(lookup_bytes table (te4 b)).2.2.2, word_byte_te4]
  rw [unmixed, first, second, third, fourth]
  refine (table_sum_found (entry td0 _) (entry td1 _) (entry td2 _) (entry td3 _)).trans ?_
  refine congrArg (fun word => some (widen word)) (word_ext fun r => ?_)
  have products := fun (i : Fin 4) (b : Byte) => word_byte_td i (ByteField.sBox b) r
  simp only [ByteField.inv_s_box_s_box] at products
  rw [word_byte_unmix_word, ByteField.invMixColumn, Circulant.circulant_by_row, word_byte_xor,
    word_byte_xor, word_byte_xor, ← products, ← products, ← products, ← products]
  rfl

section Decrypt
variable {rk : Schedule}

/-- Two words change places, and every other is as before. -/
theorem swap_words_returns (rk : Schedule) {i j : Nat} (first : i < 60) (second : j < 60) :
    Returns (swapWords rk i j) fun after => ∀ k, read after k =
      if k = j then read rk i else if k = i then read rk j else read rk k := by
  have held (k : Nat) (inside : k < 60) : read rk k = some rk[k] := by
    simp [read, inside]
  rw [swapWords, held i first, held j second]
  refine (write_returns rk first rk[j]).bind fun mid words => ?_
  refine (write_returns mid second rk[i]).mono fun after others k => ?_
  rw [others, words]

/-- The number of the round key that `AES_set_decrypt_key` moves to place `r`, when it
exchanges those at `a` and `b`. -/
def exchanged (a b r : Nat) : Nat := if r = a then b else if r = b then a else r

/-- Two round keys change places. Proof: four exchanges of words, none of which touches the
words of another. -/
theorem swap_keys_returns (rk : Schedule) {a b : Nat} (first : a < b) (second : b ≤ 14) :
    Returns (swapKeys rk (4 * a) (4 * b)) fun after => ∀ r (d : Fin 4),
      read after (4 * r + d.val) = read rk (4 * exchanged a b r + d.val) := by
  -- The swap of the words `c` leaves the other words of both keys in place.
  have swap (rk : Schedule) (c : Nat) (inside : c < 4) :
      Returns (swapWords rk (4 * a + c) (4 * b + c)) fun after => ∀ r (d : Fin 4),
        read after (4 * r + d.val) =
          read rk (4 * (if d.val = c then exchanged a b r else r) + d.val) := by
    refine (swap_words_returns rk (by omega) (by omega)).mono fun after words r d => ?_
    rw [words]
    by_cases same : d.val = c
    · rw [if_pos same, exchanged]
      by_cases left : r = a
      · rw [if_neg (by omega), if_pos (by omega), if_pos left, same]
      · by_cases right : r = b
        · rw [if_pos (by omega), if_neg left, if_pos right, same]
        · rw [if_neg (by omega), if_neg (by omega), if_neg left, if_neg right]
    · rw [if_neg (by omega), if_neg (by omega), if_neg same]
  rw [swapKeys]
  refine (swap rk 0 (by decide)).bind fun rk1 words1 => ?_
  refine (swap rk1 1 (by decide)).bind fun rk2 words2 => ?_
  refine (swap rk2 2 (by decide)).bind fun rk3 words3 => ?_
  refine (swap rk3 3 (by decide)).mono fun rk4 words4 r d => ?_
  rw [words4, words3, words2, words1]
  match d with
  | 0 | 1 | 2 | 3 => rfl

/-- The round keys between `a` and `rounds - a` end up in the opposite order. Proof:
induction along the loop; each pass exchanges the outermost two of those that are left. -/
theorem reverse_keys_returns (rk : Schedule) {rounds a : Nat} (bounded : rounds ≤ 14)
    (inside : a ≤ rounds) : Returns (reverseKeys rk (4 * a) (4 * (rounds - a))) fun after =>
      ∀ r (d : Fin 4), read after (4 * r + d.val) =
        read rk (4 * (if a ≤ r ∧ r ≤ rounds - a then rounds - r else r) + d.val) := by
  rw [reverseKeys]
  by_cases more : 4 * a < 4 * (rounds - a)
  · have left : 4 * a + 4 = 4 * (a + 1) := by omega
    have right : 4 * (rounds - a) - 4 = 4 * (rounds - (a + 1)) := by omega
    rw [if_pos more]
    refine (swap_keys_returns rk (by omega) (by omega)).bind fun mid outer => ?_
    rw [left, right]
    have rest := reverse_keys_returns mid bounded (a := a + 1) (by omega)
    refine rest.mono fun after inner r d => ?_
    rw [inner, outer]
    refine congrArg (fun place => read rk (4 * place + d.val)) ?_
    simp only [exchanged]
    split_ifs <;> omega
  · rw [if_neg more]
    refine returns_some fun r d => ?_
    refine congrArg (fun place => read rk (4 * place + d.val)) ?_
    split_ifs <;> omega
termination_by rounds - 2 * a

/-- The inverse mixing of one word in its place, where this word is a widened one. -/
theorem unmix_at_returns {i : Nat} {w : Word} (inside : i < 60)
    (held : read rk i = some (widen w)) : Returns (unmixAt rk i) fun after =>
      ∀ k, read after k = if k = i then some (widen (unmixWord w)) else read rk k := by
  rw [unmixAt, held]
  simp only [Option.bind_eq_bind, Option.bind_some, unmixed_found]
  exact write_returns rk inside _

/-- The first `n` words of round key `a` are mixed inversely, and no other key is
changed. -/
def UnmixedTo (rk : Schedule) (a : Nat) (key : Fin 4 → Word) (n : Nat) (after : Schedule) : Prop :=
  (∀ d : Fin 4, read after (4 * a + d.val) =
    some (widen (if d.val < n then unmixWord (key d) else key d))) ∧
  ∀ r (d : Fin 4), r ≠ a → read after (4 * r + d.val) = read rk (4 * r + d.val)

/-- One more word of the round key is mixed inversely. -/
theorem unmix_at_next {a : Nat} {key : Fin 4 → Word} {mid : Schedule} (inside : a ≤ 14) (c : Fin 4)
    (before : UnmixedTo rk a key c.val mid) :
    Returns (unmixAt mid (4 * a + c.val)) (UnmixedTo rk a key (c.val + 1)) := by
  have found := before.1 c
  rw [if_neg (Nat.lt_irrefl _)] at found
  refine (unmix_at_returns (by omega) found).mono fun after words =>
    ⟨fun d => ?_, fun r d other => ?_⟩
  · rw [words]
    by_cases same : d = c
    · subst same
      rw [if_pos rfl, if_pos (Nat.lt_succ_self _)]
    · have different : d.val ≠ c.val := fun equal => same (Fin.ext equal)
      have bound : d.val < c.val + 1 ↔ d.val < c.val := by omega
      rw [if_neg (by omega), before.1 d]
      simp only [bound]
  · rw [words, if_neg (by omega), before.2 r d other]

/-- The inverse mixing of one round key in its place. -/
theorem unmix_key_returns {a : Nat} {key : Fin 4 → Word} (inside : a ≤ 14)
    (held : Holds rk (4 * a) key) : Returns (unmixKey rk (4 * a)) (UnmixedTo rk a key 4) := by
  have start : UnmixedTo rk a key 0 rk := ⟨held, fun _ _ _ => rfl⟩
  rw [unmixKey]
  refine (unmix_at_next inside 0 start).bind fun rk1 one => ?_
  refine (unmix_at_next inside 1 one).bind fun rk2 two => ?_
  refine (unmix_at_next inside 2 two).bind fun rk3 three => ?_
  exact unmix_at_next inside 3 three

/-- The round keys with those from one to `n` mixed inversely. -/
def unmixedKeys (n : Nat) (keys : Nat → Fin 4 → Word) (r : Nat) : Fin 4 → Word :=
  if 1 ≤ r ∧ r ≤ n then fun c => unmixWord (keys r c) else keys r

/-- All round keys between the outer two are mixed inversely, by induction on the passes. -/
theorem unmix_keys_returns {rounds : Nat} {keys : Nat → Fin 4 → Word} (bounded : rounds ≤ 14)
    (keyed : Keyed rounds keys rk) :
    Returns (unmixKeys rk rounds) (Keyed rounds (unmixedKeys (rounds - 1) keys)) := by
  refine returns_passes (fun n => Keyed rounds (unmixedKeys n keys)) ?_ ?_
  · intro r within
    rw [unmixedKeys, if_neg (by omega)]
    exact keyed r within
  · intro n inside rk done
    have next := done (n + 1) (by omega)
    rw [unmixedKeys, if_neg (by omega)] at next
    refine (unmix_key_returns (by omega) next).mono fun after written r within => ?_
    by_cases same : r = n + 1
    · subst same
      rw [unmixedKeys, if_pos (by omega)]
      exact fun d => (written.1 d).trans (by rw [if_pos d.isLt])
    · intro d
      have place : 1 ≤ r ∧ r ≤ n + 1 ↔ 1 ≤ r ∧ r ≤ n := by omega
      have earlier := done r within d
      rw [written.2 r d same]
      simp only [unmixedKeys, place] at earlier ⊢
      exact earlier

end Decrypt

/-- The round keys in the order and form in which `AES_decrypt` uses them: backwards, and
mixed inversely except for the outer two. -/
def inverseKeys (rounds : Nat) (keys : Nat → Fin 4 → Word) : Nat → Fin 4 → Word :=
  unmixedKeys (rounds - 1) fun r => keys (rounds - r)

/-- For a length that is accepted the key holds these round keys, and the status is zero. -/
theorem set_decrypt_key_returns (mem : Memory) (userKey : Nat) {bits : Int} {nk : Nat}
    (key : AesKey) (length : (bits, nk) ∈ [((128 : Int), 4), (192, 6), (256, 8)]) :
    ∃ after, aesSetDecryptKey mem (some userKey) bits (some key) = some (0, some after) ∧
      after.rounds = nk + 6 ∧
        Keyed (nk + 6) (inverseKeys (nk + 6) (roundKeyOf (keyWords mem userKey nk)))
          after.rdKey := by
  have small : nk + 6 ≤ 14 := by
    have cases := length_cases length
    omega
  obtain ⟨forward, set, rounds, keyed⟩ := set_encrypt_key_returns mem userKey key length
  have reversed := reverse_keys_returns forward.rdKey small (Nat.zero_le _)
  obtain ⟨mid, reversal, order⟩ := reversed
  have turned : Keyed (nk + 6)
      (fun r => roundKeyOf (keyWords mem userKey nk) (nk + 6 - r)) mid := by
    intro r within c
    rw [order, if_pos (by omega)]
    exact keyed (nk + 6 - r) (by omega) c
  obtain ⟨rk, unmixing, done⟩ := unmix_keys_returns small turned
  rw [Nat.mul_zero, Nat.sub_zero] at reversal
  refine ⟨⟨rk, nk + 6⟩, ?_, rfl, done⟩
  rw [aesSetDecryptKey, set]
  simp only [Option.bind_eq_bind, Option.bind_some, rounds, reversal, unmixing]
  rfl

/-- Any other length is refused, and the key is not touched. -/
theorem set_decrypt_key_refuses (mem : Memory) (userKey : Nat) {bits : Int} (key : AesKey)
    (other : bits ∉ [(128 : Int), 192, 256]) :
    aesSetDecryptKey mem (some userKey) bits (some key) = some (-2, some key) := by
  rw [aesSetDecryptKey, set_encrypt_key_refuses mem userKey key other]
  rfl

end AesCore.Rijndael
