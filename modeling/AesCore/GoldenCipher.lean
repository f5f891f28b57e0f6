import AesCore.CipherTop
import AesCore.WordArray

/-!
# The cipher of the golden model

`encrypt_128_key_expand_inline_no_branch` of the test bench, on a little-endian
machine with signed characters. It keeps state and round key in four words each,
expands the key inside the rounds, and does nine of the ten rounds with a table
`t0` of words: entry `x` holds the four products of one byte of a column, and three
rotations turn it into the products of the other three. The last round looks single
bytes up in the same table.

In the view of the arrays as states, the rounds are those of the standard, and the
words `k0` to `k3` its round keys. So the function computes Cipher, in place.
-/

namespace AesCore.GoldenCipher

open ByteField (Byte sBox mixCoefficient)
open Fips197
open Sbox (aesSbox romEntry)
open WordArray

/-- The bytes of `table_0`, sixteen to a row, the first leftmost. The source writes them one
by one; the shape here only keeps the literals short. -/
def tableRows : List (BitVec 128) :=
  [0x6363a5c67c7c84f8777799ee7b7b8df6#128,
   0xf2f20dff6b6bbdd66f6fb1dec5c55491#128,
   0x30305060010103026767a9ce2b2b7d56#128,
   0xfefe19e7d7d762b5ababe64d76769aec#128,
   0xcaca458f82829d1fc9c940897d7d87fa#128,
   0xfafa15ef5959ebb24747c98ef0f00bfb#128,
   0xadadec41d4d467b3a2a2fd5fafafea45#128,
   0x9c9cbf23a4a4f753727296e4c0c05b9b#128,
   0xb7b7c275fdfd1ce19393ae3d26266a4c#128,
   0x36365a6c3f3f417ef7f702f5cccc4f83#128,
   0x34345c68a5a5f451e5e534d1f1f108f9#128,
   0x717193e2d8d873ab3131536215153f2a#128,
   0x04040c08c7c7529523236546c3c35e9d#128,
   0x181828309696a13705050f0a9a9ab52f#128,
   0x0707090e1212362480809b1be2e23ddf#128,
   0xebeb26cd2727694eb2b2cd7f75759fea#128,
   0x09091b1283839e1d2c2c74581a1a2e34#128,
   0x1b1b2d366e6eb2dc5a5aeeb4a0a0fb5b#128,
   0x5252f6a43b3b4d76d6d661b7b3b3ce7d#128,
   0x29297b52e3e33edd2f2f715e84849713#128,
   0x5353f5a6d1d168b900000000eded2cc1#128,
   0x20206040fcfc1fe3b1b1c8795b5bedb6#128,
   0x6a6abed4cbcb468dbebed96739394b72#128,
   0x4a4ade944c4cd4985858e8b0cfcf4a85#128,
   0xd0d06bbbefef2ac5aaaae54ffbfb16ed#128,
   0x4343c5864d4dd79a3333556685859411#128,
   0x4545cf8af9f910e9020206047f7f81fe#128,
   0x5050f0a03c3c44789f9fba25a8a8e34b#128,
   0x5151f3a2a3a3fe5d4040c0808f8f8a05#128,
   0x9292ad3f9d9dbc2138384870f5f504f1#128,
   0xbcbcdf63b6b6c177dada75af21216342#128,
   0x10103020ffff1ae5f3f30efdd2d26dbf#128,
   0xcdcd4c810c0c141813133526ecec2fc3#128,
   0x5f5fe1be9797a2354444cc881717392e#128,
   0xc4c45793a7a7f2557e7e82fc3d3d477a#128,
   0x6464acc85d5de7ba19192b32737395e6#128,
   0x6060a0c0818198194f4fd19edcdc7fa3#128,
   0x222266442a2a7e549090ab3b8888830b#128,
   0x4646ca8ceeee29c7b8b8d36b14143c28#128,
   0xdede79a75e5ee2bc0b0b1d16dbdb76ad#128,
   0xe0e03bdb323256643a3a4e740a0a1e14#128,
   0x4949db9206060a0c24246c485c5ce4b8#128,
   0xc2c25d9fd3d36ebdacacef436262a6c4#128,
   0x9191a8399595a431e4e437d379798bf2#128,
   0xe7e732d5c8c8438b3737596e6d6db7da#128,
   0x8d8d8c01d5d564b14e4ed29ca9a9e049#128,
   0x6c6cb4d85656faacf4f407f3eaea25cf#128,
   0x6565afca7a7a8ef4aeaee94708081810#128,
   0xbabad56f787888f025256f4a2e2e725c#128,
   0x1c1c2438a6a6f157b4b4c773c6c65197#128,
   0xe8e823cbdddd7ca174749ce81f1f213e#128,
   0x4b4bdd96bdbddc618b8b860d8a8a850f#128,
   0x707090e03e3e427cb5b5c4716666aacc#128,
   0x4848d89003030506f6f601f70e0e121c#128,
   0x6161a3c235355f6a5757f9aeb9b9d069#128,
   0x86869117c1c158991d1d273a9e9eb927#128,
   0xe1e138d9f8f813eb9898b32b11113322#128,
   0x6969bbd2d9d970a98e8e89079494a733#128,
   0x9b9bb62d1e1e223c87879215e9e920c9#128,
   0xcece49875555ffaa28287850dfdf7aa5#128,
   0x8c8c8f03a1a1f859898980090d0d171a#128,
   0xbfbfda65e6e631d74242c6846868b8d0#128,
   0x4141c3829999b0292d2d775a0f0f111e#128,
   0xb0b0cb7b5454fca8bbbbd66d16163a2c#128]

/-- Byte `i` of `table_0`. The array is never read outside: every index the functions form
is below 1024. -/
def table0 (i : Nat) : Byte := romEntry tableRows i

/-- The same table as an array of words, by the cast of the source. On a little-endian
machine byte `4 * x` of the table is the lowest byte of entry `x`. -/
def t0 (x : Byte) : Word :=
  littleEndian (table0 (4 * x.toNat)) (table0 (4 * x.toNat + 1)) (table0 (4 * x.toNat + 2))
    (table0 (4 * x.toNat + 3))

/-- Macro `sub_byte`: each byte of the word is replaced in place by the first byte of its
table entry. This byte is the S-box. -/
def subByte (w : Word) : Word :=
  littleEndian (table0 ((byteAt w 0).toNat * 4)) (table0 ((byteAt w 1).toNat * 4))
    (table0 ((byteAt w 2).toNat * 4)) (table0 ((byteAt w 3).toNat * 4))

/-- Macro `rot_up_8`: every byte moves one place up, the highest becomes the lowest. -/
def rotUp8 (x : Word) : Word := (x <<< 8) ||| (x >>> 24)

/-- Macro `rot_16`: the halves of the word change places, so it is its own inverse. -/
def rot16 (x : Word) : Word := (x <<< 16) ||| (x >>> 16)

/-- Macro `rot_down_8`: every byte moves one place down, the lowest becomes the highest. In
memory order this is the rotation of the key schedule. -/
def rotDown8 (x : Word) : Word := (x >>> 8) ||| (x <<< 24)

/-- The next `rcon`, by way of a signed integer `j`. The character is extended with its
sign, so that the shift by eight is all ones exactly when the reduction is due. With
unsigned characters the mask would let a single bit through and the reduction would be
wrong. -/
def nextRcon (rcon : Byte) : Byte :=
  let j := rcon.signExtend 32 <<< 1
  (j ^^^ (j.sshiftRight 8 &&& 0x1B#32)).setWidth 8

/-- The next round key in `k0` to `k3`. The assignments run one after the other, so each
word already takes up the new value of the one before it. -/
def expand (k : WordArray) (rcon : Byte) : WordArray :=
  let temp := subByte (rotDown8 (k.get 3)) ^^^ rcon.setWidth 32
  let k0 := k.get 0 ^^^ temp
  let k1 := k.get 1 ^^^ k0
  let k2 := k.get 2 ^^^ k1
  let k3 := k.get 3 ^^^ k2
  four k0 k1 k2 k3

/-- Macros `table_lookup` and `rot`: the words `p0` to `p3` for a word of the state. One
table serves all four rows, because the products of the other rows are rotations of each
other. -/
def tableLookup (y : Word) : WordArray :=
  four (rotUp8 (t0 (byteAt y 0))) (rot16 (t0 (byteAt y 1))) (rotDown8 (t0 (byteAt y 2)))
    (t0 (byteAt y 3))

/-- The sums `z0` to `z3` of a round key and the lookups at the four words of a state. Which
sum a lookup enters moves by one from each word to the next; this is how the rows are
shifted. -/
def accumulate (k p q u v : WordArray) : WordArray :=
  let z0 := k.get 0 ^^^ p.get 0
  let z3 := k.get 3 ^^^ p.get 1
  let z2 := k.get 2 ^^^ p.get 2
  let z1 := k.get 1 ^^^ p.get 3
  let z1 := z1 ^^^ q.get 0
  let z0 := z0 ^^^ q.get 1
  let z3 := z3 ^^^ q.get 2
  let z2 := z2 ^^^ q.get 3
  let z2 := z2 ^^^ u.get 0
  let z1 := z1 ^^^ u.get 1
  let z0 := z0 ^^^ u.get 2
  let z3 := z3 ^^^ u.get 3
  four (z0 ^^^ v.get 3) (z1 ^^^ v.get 2) (z2 ^^^ v.get 1) (z3 ^^^ v.get 0)

/-- The state after a table round with round key `k`. All four words are looked up before
the first is overwritten: the source keeps the sums in `z0` to `z3` until then. -/
def tableRound (k state : WordArray) : WordArray :=
  accumulate k (tableLookup (state.get 0)) (tableLookup (state.get 1)) (tableLookup (state.get 2))
    (tableLookup (state.get 3))

/-- One word of the last round: the bytes of `k` take up those of `table_0` at four bytes of
the state. There is no mixing, so single bytes suffice. -/
def lastWord (k : Word) (a0 a1 a2 a3 : Byte) : Word :=
  littleEndian (byteAt k 0 ^^^ table0 (a0.toNat * 4)) (byteAt k 1 ^^^ table0 (a1.toNat * 4))
    (byteAt k 2 ^^^ table0 (a2.toNat * 4)) (byteAt k 3 ^^^ table0 (a3.toNat * 4))

/-- The state after the last round with round key `k`. The indices of the sixteen bytes are
those of the source, which spell out the shifted rows. -/
def lastRound (k state : WordArray) : WordArray :=
  let a := bytes state
  four (lastWord (k.get 0) (a 0) (a 5) (a 10) (a 15)) (lastWord (k.get 1) (a 4) (a 9) (a 14) (a 3))
    (lastWord (k.get 2) (a 8) (a 13) (a 2) (a 7)) (lastWord (k.get 3) (a 12) (a 1) (a 6) (a 11))

/-- The variables of the loop: the array `state`, the round key in `k0` to `k3`, and `rcon`.
The others are set anew in every iteration. -/
structure Loop where
  state : WordArray
  k : WordArray
  rcon : Byte
  deriving DecidableEq

/-- The body of the loop: the round key is expanded first and used at once, so the constant
passed on belongs to the next iteration. -/
def body (s : Loop) : Loop :=
  let k := expand s.k s.rcon
  { state := tableRound k s.state, k, rcon := nextRcon s.rcon }

/-- The variables before each iteration. They start from the sum of state and key, the key
itself and the constant one. -/
def loop (state key : WordArray) : Nat → Loop
  | 0 => ⟨xorWords state key, key, 0x01#8⟩
  | i + 1 => body (loop state key i)

/-- Function `encrypt_128_key_expand_inline_no_branch`: the state array it leaves. Nine
iterations, then a tenth round key and the last round. The key array is only read. -/
def encrypt128KeyExpandInlineNoBranch (state key : WordArray) : WordArray :=
  let s := loop state key 9
  lastRound (expand s.k s.rcon) s.state

/-- The three rotations, as rotations upwards by whole bytes. Proof: a byte of the result is
a byte of the word at a fixed place, for each of the four places. -/
theorem byte_at_rotations (x : Word) (r : Fin 4) : byteAt (rotUp8 x) r = byteAt x (r - 1) ∧
    byteAt (rot16 x) r = byteAt x (r - 2) ∧ byteAt (rotDown8 x) r = byteAt x (r - 3) := by
  have down : rotDown8 x = x.rotateLeft (8 * (3 : Fin 4).val) := BitVec.or_comm _ _
  exact ⟨byte_at_rotate_left x 1 r, byte_at_rotate_left x 2 r, down ▸ byte_at_rotate_left x 3 r⟩

/-- An entry of the table repeats the S-box twice and continues with its multiples by three
and by two. Both are written with the doubling of the core, so the same computation ties
software and hardware. One kernel computation over all bytes. -/
theorem table_0_eq : ∀ x : Byte, table0 (4 * x.toNat) = aesSbox x ∧
    table0 (4 * x.toNat + 1) = aesSbox x ∧
    table0 (4 * x.toNat + 2) = StateRegisters.xtime (aesSbox x) ^^^ aesSbox x ∧
    table0 (4 * x.toNat + 3) = StateRegisters.xtime (aesSbox x) := by
  decide +kernel

/-- Every fourth byte is the S-box. The last round and the key schedule read no others. -/
theorem table_0_first (x : Byte) : table0 (x.toNat * 4) = sBox x := by
  rw [Nat.mul_comm, (table_0_eq x).1, Sbox.aes_sbox_eq]

/-- An entry of `t0` holds the products that row 3 of a column contributes: the S-box twice,
then its multiples by three and by two. -/
theorem byte_at_t0 (x : Byte) (r : Fin 4) :
    byteAt (t0 x) r = mixCoefficient (3 - r) (sBox x) := by
  obtain ⟨first, second, third, fourth⟩ := table_0_eq x
  obtain ⟨two, three, one⟩ := CipherTop.mix_coefficients (sBox x)
  have entry := byte_at_little_endian (fun i => mixCoefficient (3 - i) (sBox x)) r
  rw [← entry, t0, first, second, third, fourth, Sbox.aes_sbox_eq, ← three, ← two]
  simp only [Fin.isValue, Fin.reduceSub, mixCoefficient, one]

/-- The words `p0` to `p3` hold the products that rows 0 to 3 of a column contribute: each
rotation moves the coefficients of row 3 to the row in question. -/
theorem byte_at_table_lookup (y : Word) (i r : Fin 4) :
    byteAt ((tableLookup y).get i) r = mixCoefficient (i - r) (sBox (byteAt y i)) := by
  have distances : ∀ r : Fin 4,
      3 - (r - 1) = 0 - r ∧ 3 - (r - 2) = 1 - r ∧ 3 - (r - 3) = 2 - r := by
    decide
  have rotated (x : Byte) := byte_at_rotations (t0 x) r
  obtain ⟨p0, p1, p2, p3⟩ := get_words (rotUp8 (t0 (byteAt y 0))) (rot16 (t0 (byteAt y 1)))
    (rotDown8 (t0 (byteAt y 2))) (t0 (byteAt y 3))
  rw [tableLookup]
  match i with
  | 0 => rw [p0, (rotated _).1, byte_at_t0, (distances r).1]
  | 1 => rw [p1, (rotated _).2.1, byte_at_t0, (distances r).2.1]
  | 2 => rw [p2, (rotated _).2.2, byte_at_t0, (distances r).2.2]
  | 3 => rw [p3, byte_at_t0]

/-- Word `c` of a sum takes `p0` from word `c` of the state, and each further summand from
the next word. This is the column that the shifted rows bring together. -/
theorem accumulate_get (k : WordArray) (p : Fin 4 → WordArray) (c : Fin 4) :
    (accumulate k (p 0) (p 1) (p 2) (p 3)).get c =
      k.get c ^^^
        ((p c).get 0 ^^^ (p (c + 1)).get 1 ^^^ (p (c + 2)).get 2 ^^^ (p (c + 3)).get 3) := by
  match c with
  | 0 =>
    change k.get 0 ^^^ (p 0).get 0 ^^^ (p 1).get 1 ^^^ (p 2).get 2 ^^^ (p 3).get 3 = _
    simp only [Fin.isValue, Fin.reduceAdd]
    ac_rfl
  | 1 =>
    change k.get 1 ^^^ (p 0).get 3 ^^^ (p 1).get 0 ^^^ (p 2).get 1 ^^^ (p 3).get 2 = _
    simp only [Fin.isValue, Fin.reduceAdd]
    ac_rfl
  | 2 =>
    change k.get 2 ^^^ (p 0).get 2 ^^^ (p 1).get 3 ^^^ (p 2).get 0 ^^^ (p 3).get 1 = _
    simp only [Fin.isValue, Fin.reduceAdd]
    ac_rfl
  | 3 =>
    change k.get 3 ^^^ (p 0).get 1 ^^^ (p 1).get 2 ^^^ (p 2).get 3 ^^^ (p 3).get 0 = _
    simp only [Fin.isValue, Fin.reduceAdd]
    ac_rfl

/-- A table round is a full round of the standard: the lookups are the products of the mixed
columns, and the choice of words is the shift of the rows. Proof: by bytes, through the
circulant form of the mixing. -/
theorem view_table_round (k state : WordArray) :
    view (tableRound k state) =
      layers.add (keyView k) (layers.mix (layers.sub (view state))) := by
  funext r c
  have collected := accumulate_get k (fun c => tableLookup (state.get c)) c
  have mixed := Circulant.circulant_by_row mixCoefficient (fun i => sBox (view state i (c + i))) r
  have word : byteAt ((tableRound k state).get c) r = byteAt (k.get c) r ^^^
      ByteField.mixColumn (fun i => sBox (view state i (c + i))) r := by
    rw [ByteField.mixColumn, mixed, tableRound]
    refine (congrArg (fun word => byteAt word r) collected).trans ?_
    simp only [byte_at_xor, byte_at_table_lookup, view, Fin.add_zero]
  refine word.trans ?_
  rw [BitVec.xor_comm, ← word_byte_swap]
  rfl

/-- A word of the last round substitutes the given bytes and adds the round key, byte by
byte. -/
theorem byte_at_last_word (k : Word) (a : Fin 4 → Byte) (r : Fin 4) :
    byteAt (lastWord k (a 0) (a 1) (a 2) (a 3)) r = byteAt k r ^^^ sBox (a r) := by
  have entry := byte_at_little_endian (fun i => byteAt k i ^^^ table0 ((a i).toNat * 4)) r
  simp only [table_0_first] at entry
  simpa only [lastWord, table_0_first] using entry

/-- The last round is that of the standard, without the mixing. The sixteen indices of the
source are compared with the shift of the rows one column at a time. -/
theorem view_last_round (k state : WordArray) :
    view (lastRound k state) = layers.add (keyView k) (layers.sub (view state)) := by
  funext r c
  have word : byteAt ((lastRound k state).get c) r =
      byteAt (k.get c) r ^^^ sBox (view state r (c + r)) := by
    have entry (k : Word) (c : Fin 4) := byte_at_last_word k (fun i => view state i (c + i)) r
    match c with
    | 0 => exact entry (k.get 0) 0
    | 1 => exact entry (k.get 1) 1
    | 2 => exact entry (k.get 2) 2
    | 3 => exact entry (k.get 3) 3
  refine word.trans ?_
  rw [BitVec.xor_comm, ← word_byte_swap]
  rfl

/-- The word `temp` substitutes and rotates as the schedule does. Words in memory have the
first byte lowest, those of the standard highest, hence `swap` on both sides. -/
theorem swap_sub_byte (w : Word) : swap (subByte (rotDown8 w)) = subWord (rotWord (swap w)) := by
  have next : ∀ r : Fin 4, r - 3 = r + 1 := by decide
  have substituted (r : Fin 4) : byteAt (subByte (rotDown8 w)) r = sBox (byteAt w (r + 1)) := by
    have entry := byte_at_little_endian
      (fun i => table0 ((byteAt (rotDown8 w) i).toNat * 4)) r
    rw [subByte, entry, table_0_first, (byte_at_rotations w r).2.2, next]
  rw [swap]
  simp only [substituted, subWord, word_byte_rot_word, word_byte_swap]

/-- The round constant enters the first byte in memory, which is the highest byte of a word
of the standard. -/
theorem swap_rcon : ∀ b : Byte, swap (b.setWidth 32) = ofBytes b 0#8 0#8 0#8 := by
  decide +kernel

/-- Nothing is lost between the words of an array and its round key: four words that are
those of the key one by one make up the key. -/
theorem key_view_words (k0 k1 k2 k3 : Word) {key : Fin 4 → Word} (first : swap k0 = key 0)
    (second : swap k1 = key 1) (third : swap k2 = key 2) (fourth : swap k3 = key 3) :
    keyView (four k0 k1 k2 k3) = key := by
  funext c
  match c with
  | 0 => exact first
  | 1 => exact second
  | 2 => exact third
  | 3 => exact fourth

/-- The next constant is the next power of `x`. The sign of the character does what the bit
test of the comment in the source describes; checked for all bytes. -/
theorem next_rcon_eq : ∀ rcon : Byte, nextRcon rcon = ByteField.xtime rcon := by decide +kernel

/-- The words `k0` to `k3` advance by one round key. Proof: the four assignments are the
recursion of the schedule at four successive words, and only the first of them opens a
group. -/
theorem key_view_expand {k : WordArray} {rcon : Byte} {key : Block} {j : Nat}
    (words : keyView k = roundKey key j) (constant : rcon = ByteField.xPower j) :
    keyView (expand k rcon) = roundKey key (j + 1) := by
  obtain ⟨second, third, fourth⟩ := KeyExpand.round_key_later key j
  have word (c : Fin 4) : swap (k.get c) = roundKey key j c := congrFun words c
  have temp : swap (subByte (rotDown8 (k.get 3)) ^^^ rcon.setWidth 32) =
      subWord (rotWord (roundKey key j 3)) ^^^ Fips197.rcon (j + 1) := by
    rw [swap_xor, swap_sub_byte, swap_rcon, constant, ← word 3]
    rfl
  have k0 : swap (k.get 0 ^^^ (subByte (rotDown8 (k.get 3)) ^^^ rcon.setWidth 32)) =
      roundKey key (j + 1) 0 := by
    rw [swap_xor, temp, KeyExpand.round_key_first, ← word 0]
  have chain {c : Fin 4} {earlier next : Word} (before : swap earlier = next) :
      swap (k.get c ^^^ earlier) = roundKey key j c ^^^ next := by
    rw [swap_xor, word, before]
  have k1 := (chain (c := 1) k0).trans second.symm
  have k2 := (chain (c := 2) k1).trans third.symm
  exact key_view_words _ _ _ _ k0 k1 k2 ((chain (c := 3) k2).trans fourth.symm)

/-- What the variables of the loop hold after `j` rounds on `state` under `key`: the state
of the standard, the round key last used, and the constant for the next one. -/
structure Reached (key : Block) (state : State) (j : Nat) (s : Loop) : Prop where
  state : view s.state = layers.forward (roundKey key) (layers.add (roundKey key 0) state) j
  k : keyView s.k = roundKey key j
  rcon : s.rcon = ByteField.xPower j

/-- One iteration is one round. The round key added is the one that the expansion has just
made, so the fact about the words comes first. -/
theorem body_reached {key : Block} {state : State} {j : Nat} {s : Loop}
    (reached : Reached key state j s) : Reached key state (j + 1) (body s) where
  state := by
    rw [body, view_table_round, key_view_expand reached.k reached.rcon, reached.state]
    rfl
  k := key_view_expand reached.k reached.rcon
  rcon := by
    rw [body, next_rcon_eq, reached.rcon]
    rfl

/-- The loop runs the rounds of the standard, by induction on the iterations. The sum before
the loop is the initial round key addition. -/
theorem loop_reached (state : WordArray) {key : WordArray} {block : Block}
    (words : keyView key = blockWord block) (j : Nat) :
    Reached block (view state) j (loop state key j) := by
  have first : roundKey block 0 = blockWord block := by
    funext c
    match c with
    | 0 | 1 | 2 | 3 => rfl
  induction j with
  | zero =>
    refine ⟨?_, words.trans first.symm, rfl⟩
    rw [first, ← words]
    exact view_xor_words state key
  | succ j inductionHypothesis => exact body_reached inductionHypothesis

/-- The function computes Cipher in the views of its arrays. Nine iterations bring the
variables to round nine; what follows the loop is the tenth round. -/
theorem view_encrypt {state key : WordArray} {block text : Block}
    (words : keyView key = blockWord block) (bytes : view state = toState text) :
    ofState (view (encrypt128KeyExpandInlineNoBranch state key)) = cipher block text := by
  obtain ⟨rounds, schedule, constant⟩ := loop_reached state words 9
  rw [encrypt128KeyExpandInlineNoBranch, view_last_round, key_view_expand schedule constant, rounds,
    bytes]
  rfl

end AesCore.GoldenCipher
