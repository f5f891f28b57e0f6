import AesCore.CipherTop
import AesCore.InvCipherTop
import AesCore.KeyLengths

/-!
# The rounds of the byte-oriented cipher

The library `aes-byte-29-08-08` uses operations on bytes only, with tables. Two layers of
the standard are one function each time: `mix_sub_columns` looks up multiples of
substituted bytes, and `inv_mix_sub_columns` substitutes inversely what it has mixed
inversely, so that a decryption adds its round keys before the inverse mixing, as the
hardware does.

`xor_block`, `copy_and_key` and `add_round_key` take four words of the type `uint_32t` at
a time, which is `unsigned long`. They are modelled for machines where this type has 32
bits, so that a block is what they take. Where it has 64 bits, as on most machines with
64-bit addresses, the source touches 32 bytes, also behind a block that a caller passes,
and no statement about this library holds there.
-/

namespace AesCore.ByteCipher

open ByteField (Byte mul mixCoefficient invMixCoefficient)
open Fips197
open Sbox (romEntry sboxRows invSboxRows)

variable {n : Nat}

/-- An array of `N_BLOCK` bytes, such as the local `s1` of the ciphers. -/
abbrev ByteBlock := Vector Byte 16

/-- The entry `k[i]`. No index outside an array occurs as long as a context has at most
fourteen rounds, so the default is then never the answer to a read of the source. -/
def byte (k : Vector Byte n) (i : Nat) : Byte := k.getD i 0#8

/-- Assignments to `k[cc + 0]` to `k[cc + 3]`, in this order. The loops of the key schedules
write four bytes at a time. -/
def put (k : Vector Byte n) (cc : Nat) (b0 b1 b2 b3 : Byte) : Vector Byte n :=
  (((k.setIfInBounds cc b0).setIfInBounds (cc + 1) b1).setIfInBounds (cc + 2) b2).setIfInBounds
    (cc + 3) b3

/-- The sixteen bytes at `k + r * N_BLOCK`, which the ciphers take for round key `r`. -/
def chunk (k : Vector Byte n) (r : Nat) : ByteBlock := Vector.ofFn fun i => byte k (r * 16 + i.val)

/-!
## Tables
-/

/-- Macro `f2`, on integers: the product with `x`, reduced by the bit that was shifted out.
The result still carries nothing above eight bits when the argument is a byte. -/
def f2 (x : Nat) : Nat := (x <<< 1) ^^^ (((x >>> 7) &&& 1) * 0x011b)

/-- Macro `f4`: two bits are shifted out, and each of them is reduced at its own place. -/
def f4 (x : Nat) : Nat :=
  (x <<< 2) ^^^ (((x >>> 6) &&& 1) * 0x011b) ^^^ (((x >>> 6) &&& 2) * 0x011b)

/-- Macro `f8`: three bits are shifted out, and each of them is reduced at its own place. -/
def f8 (x : Nat) : Nat :=
  (x <<< 3) ^^^ (((x >>> 5) &&& 1) * 0x011b) ^^^ (((x >>> 5) &&& 2) * 0x011b) ^^^
    (((x >>> 5) &&& 4) * 0x011b)

/-- Macro `d2`: half of the argument, with the reduction the other way round. The key
schedules on the fly use it to step a constant back. -/
def d2 (x : Nat) : Nat := (x >>> 1) ^^^ (if x &&& 1 ≠ 0 then 0x008d else 0)

/-- Macro `f3`, by addition. -/
def f3 (x : Nat) : Nat := f2 x ^^^ x

/-- Macro `f9`, by addition. -/
def f9 (x : Nat) : Nat := f8 x ^^^ x

/-- Macro `fb`, by addition. -/
def fb (x : Nat) : Nat := f8 x ^^^ f2 x ^^^ x

/-- Macro `fd`, by addition. -/
def fd (x : Nat) : Nat := f8 x ^^^ f4 x ^^^ x

/-- Macro `fe`, by addition. -/
def fe (x : Nat) : Nat := f8 x ^^^ f4 x ^^^ f2 x

/-- An integer stored in a byte: what lies above eight bits is lost, as in an initialiser of
an array of bytes. -/
def stored (n : Nat) : Byte := BitVec.ofNat 8 n

/-- Table `sbox`. The bytes of `sb_data` are those of the hardware's table, so its rows are
used for both. -/
def sBox (x : Byte) : Byte := romEntry sboxRows x.toNat

/-- Table `isbox`. The bytes of `isb_data` are those of the hardware's table, so its rows
are used for both. -/
def isBox (x : Byte) : Byte := romEntry invSboxRows x.toNat

/-- Table `gfm2_sbox`: the macro over the bytes of `sb_data`, one entry after the other. -/
def gfm2Sb (x : Byte) : Byte := stored (f2 (romEntry sboxRows x.toNat).toNat)

/-- Table `gfm3_sbox`: the macro over the bytes of `sb_data`, one entry after the other. -/
def gfm3Sb (x : Byte) : Byte := stored (f3 (romEntry sboxRows x.toNat).toNat)

/-- Table `gfmul_9`. The bytes of `mm_data` are their own indices, so the entry at `x` is
the macro at `x`. -/
def gfm9 (x : Byte) : Byte := stored (f9 x.toNat)

/-- Table `gfmul_b`, over the same data. -/
def gfmB (x : Byte) : Byte := stored (fb x.toNat)

/-- Table `gfmul_d`, over the same data. -/
def gfmD (x : Byte) : Byte := stored (fd x.toNat)

/-- Table `gfmul_e`, over the same data. -/
def gfmE (x : Byte) : Byte := stored (fe x.toNat)

/-!
## Rounds
-/

/-- Function `xor_block`: four words of the type `uint_32t` are added, which is
`unsigned long`. They are these sixteen bytes where the type has 32 bits. Where it has 64
bits, the source reads and writes sixteen bytes more. -/
def xorBlock (d s : ByteBlock) : ByteBlock := Vector.zipWith (· ^^^ ·) d s

/-- Function `copy_and_key`: the sum of four words of the type `uint_32t` with the round
key, put into another array. As for `xor_block`, these are sixteen bytes only where
`unsigned long` has 32 bits. -/
def copyAndKey (s k : ByteBlock) : ByteBlock := Vector.zipWith (· ^^^ ·) s k

/-- Function `add_round_key`, which is `xor_block` with the round key on the right, under
the same condition. -/
def addRoundKey (d k : ByteBlock) : ByteBlock := xorBlock d k

/-- Function `shift_sub_rows`. The source works in place with one temporary byte; what each
place holds afterwards is written here. -/
def shiftSubRows (st : ByteBlock) : ByteBlock :=
  #v[sBox st[0], sBox st[5], sBox st[10], sBox st[15],
    sBox st[4], sBox st[9], sBox st[14], sBox st[3],
    sBox st[8], sBox st[13], sBox st[2], sBox st[7],
    sBox st[12], sBox st[1], sBox st[6], sBox st[11]]

/-- Function `inv_shift_sub_rows`. The source works in place with one temporary byte; what
each place holds afterwards is written here. -/
def invShiftSubRows (st : ByteBlock) : ByteBlock :=
  #v[isBox st[0], isBox st[13], isBox st[10], isBox st[7],
    isBox st[4], isBox st[1], isBox st[14], isBox st[11],
    isBox st[8], isBox st[5], isBox st[2], isBox st[15],
    isBox st[12], isBox st[9], isBox st[6], isBox st[3]]

/-- Function `mix_sub_columns`, which reads a copy of the array it overwrites. The indices
are those of the shifted rows, the tables those of the mixing. -/
def mixSubColumns (st : ByteBlock) : ByteBlock :=
  #v[gfm2Sb st[0] ^^^ gfm3Sb st[5] ^^^ sBox st[10] ^^^ sBox st[15],
    sBox st[0] ^^^ gfm2Sb st[5] ^^^ gfm3Sb st[10] ^^^ sBox st[15],
    sBox st[0] ^^^ sBox st[5] ^^^ gfm2Sb st[10] ^^^ gfm3Sb st[15],
    gfm3Sb st[0] ^^^ sBox st[5] ^^^ sBox st[10] ^^^ gfm2Sb st[15],
    gfm2Sb st[4] ^^^ gfm3Sb st[9] ^^^ sBox st[14] ^^^ sBox st[3],
    sBox st[4] ^^^ gfm2Sb st[9] ^^^ gfm3Sb st[14] ^^^ sBox st[3],
    sBox st[4] ^^^ sBox st[9] ^^^ gfm2Sb st[14] ^^^ gfm3Sb st[3],
    gfm3Sb st[4] ^^^ sBox st[9] ^^^ sBox st[14] ^^^ gfm2Sb st[3],
    gfm2Sb st[8] ^^^ gfm3Sb st[13] ^^^ sBox st[2] ^^^ sBox st[7],
    sBox st[8] ^^^ gfm2Sb st[13] ^^^ gfm3Sb st[2] ^^^ sBox st[7],
    sBox st[8] ^^^ sBox st[13] ^^^ gfm2Sb st[2] ^^^ gfm3Sb st[7],
    gfm3Sb st[8] ^^^ sBox st[13] ^^^ sBox st[2] ^^^ gfm2Sb st[7],
    gfm2Sb st[12] ^^^ gfm3Sb st[1] ^^^ sBox st[6] ^^^ sBox st[11],
    sBox st[12] ^^^ gfm2Sb st[1] ^^^ gfm3Sb st[6] ^^^ sBox st[11],
    sBox st[12] ^^^ sBox st[1] ^^^ gfm2Sb st[6] ^^^ gfm3Sb st[11],
    gfm3Sb st[12] ^^^ sBox st[1] ^^^ sBox st[6] ^^^ gfm2Sb st[11]]

/-- Function `inv_mix_sub_columns`, which reads a copy of the array it overwrites. Here the
shift of the rows shows in the places that are written; they stand in the order of the
array. -/
def invMixSubColumns (st : ByteBlock) : ByteBlock :=
  #v[isBox (gfmE st[0] ^^^ gfmB st[1] ^^^ gfmD st[2] ^^^ gfm9 st[3]),
    isBox (gfm9 st[12] ^^^ gfmE st[13] ^^^ gfmB st[14] ^^^ gfmD st[15]),
    isBox (gfmD st[8] ^^^ gfm9 st[9] ^^^ gfmE st[10] ^^^ gfmB st[11]),
    isBox (gfmB st[4] ^^^ gfmD st[5] ^^^ gfm9 st[6] ^^^ gfmE st[7]),
    isBox (gfmE st[4] ^^^ gfmB st[5] ^^^ gfmD st[6] ^^^ gfm9 st[7]),
    isBox (gfm9 st[0] ^^^ gfmE st[1] ^^^ gfmB st[2] ^^^ gfmD st[3]),
    isBox (gfmD st[12] ^^^ gfm9 st[13] ^^^ gfmE st[14] ^^^ gfmB st[15]),
    isBox (gfmB st[8] ^^^ gfmD st[9] ^^^ gfm9 st[10] ^^^ gfmE st[11]),
    isBox (gfmE st[8] ^^^ gfmB st[9] ^^^ gfmD st[10] ^^^ gfm9 st[11]),
    isBox (gfm9 st[4] ^^^ gfmE st[5] ^^^ gfmB st[6] ^^^ gfmD st[7]),
    isBox (gfmD st[0] ^^^ gfm9 st[1] ^^^ gfmE st[2] ^^^ gfmB st[3]),
    isBox (gfmB st[12] ^^^ gfmD st[13] ^^^ gfm9 st[14] ^^^ gfmE st[15]),
    isBox (gfmE st[12] ^^^ gfmB st[13] ^^^ gfmD st[14] ^^^ gfm9 st[15]),
    isBox (gfm9 st[8] ^^^ gfmE st[9] ^^^ gfmB st[10] ^^^ gfmD st[11]),
    isBox (gfmD st[4] ^^^ gfm9 st[5] ^^^ gfmE st[6] ^^^ gfmB st[7]),
    isBox (gfmB st[0] ^^^ gfmD st[1] ^^^ gfm9 st[2] ^^^ gfmE st[3])]

/-!
## States of bytes
-/

/-- An array as a state of the standard: the bytes fill it column by column. -/
def view (b : ByteBlock) : State := fun r c => b[4 * c.val + r.val]

/-- The four bytes from index `4 * i` as the standard writes them, the first of them
highest. -/
def word (k : Vector Byte n) (i : Nat) : Word :=
  ofBytes (byte k (4 * i)) (byte k (4 * i + 1)) (byte k (4 * i + 2)) (byte k (4 * i + 3))

/-- The words of an array as a round key of the standard. -/
def words (b : ByteBlock) : Fin 4 → Word := fun c => word b c.val

/-- The words of a key, as many as there are whole groups of four bytes. -/
def keyWords (key : Vector Byte n) : List Word := (List.range (n / 4)).map (word key)

/-- An entry of an array, where the index is known to be inside. -/
theorem byte_of {k : Vector Byte n} {i : Nat} (inside : i < n) : byte k i = k[i] := by
  simp [byte, Vector.getD, inside]

/-- An entry after an assignment: the new byte at this index, the old one elsewhere. -/
theorem byte_set (k : Vector Byte n) (i j : Nat) (b : Byte) (inside : j < n) :
    byte (k.setIfInBounds i b) j = if i = j then b else byte k j := by
  rw [byte_of inside, byte_of inside, Vector.getElem_setIfInBounds]

/-- The words of an array after the assignments to one of them: this word is made of the
four bytes, and every other is as before. -/
theorem word_put (k : Vector Byte n) {m i : Nat} (b0 b1 b2 b3 : Byte) (inside : 4 * i + 3 < n) :
    word (put k (4 * m) b0 b1 b2 b3) i = if i = m then ofBytes b0 b1 b2 b3 else word k i := by
  have entries (j : Nat) (bounded : j < n) : byte (put k (4 * m) b0 b1 b2 b3) j =
      if 4 * m + 3 = j then b3 else if 4 * m + 2 = j then b2 else if 4 * m + 1 = j then b1
        else if 4 * m = j then b0 else byte k j := by
    simp only [put, byte_set, bounded]
  rw [word, entries _ (by omega), entries _ (by omega), entries _ (by omega), entries _ inside]
  by_cases same : i = m
  · subst same
    simp
  · rw [if_neg same, word]
    simp (disch := omega) only [if_neg]

/-- The words of sixteen bytes of a longer array are four words of that array in a row. -/
theorem words_chunk (k : Vector Byte n) (r : Nat) (c : Fin 4) :
    words (chunk k r) c = word k (4 * r + c.val) := by
  have entry (i : Nat) (inside : i < 16) : byte (chunk k r) i = byte k (r * 16 + i) := by
    rw [byte_of inside, chunk, Vector.getElem_ofFn]
  rw [words, word, entry _ (by omega), entry _ (by omega), entry _ (by omega),
    entry _ (by omega), word]
  congr 2 <;> omega

/-- The words of an array are the columns of the state it shows. -/
theorem words_eq (b : ByteBlock) : words b = column (view b) := by
  funext c
  have entry (r : Fin 4) : byte b (4 * c.val + r.val) = view b r c := by
    rw [byte_of (by omega), view]
  rw [column, ← entry 0, ← entry 1, ← entry 2, ← entry 3]
  rfl

/-- Arrays that show the same state are equal: every byte of an array has its place in the
state. -/
theorem view_injective {left right : ByteBlock} (same : view left = view right) : left = right := by
  apply Vector.ext
  intro i inside
  have entry := congrFun (congrFun same ⟨i % 4, by omega⟩) ⟨i / 4, by omega⟩
  simpa only [view, Nat.div_add_mod] using entry

/-- `add_round_key` adds the words of the round key to the columns. Proof: byte by byte, on
both sides at the same place. -/
theorem view_add (d k : ByteBlock) : view (addRoundKey d k) = layers.add (words k) (view d) := by
  funext r c
  have byte : layers.add (words k) (view d) r c = view d r c ^^^ wordByte (words k c) r := rfl
  rw [byte, words_eq, word_byte_column, view, addRoundKey, xorBlock, Vector.getElem_zipWith]
  rfl

/-- `sbox` is the S-box, by the theorem about the hardware's table. -/
theorem s_box_eq (x : Byte) : sBox x = ByteField.sBox x := Sbox.aes_sbox_eq x

/-- `isbox` is the inverse S-box, by the theorem about the hardware's table. -/
theorem is_box_eq (x : Byte) : isBox x = ByteField.invSBox x := Sbox.aes_inv_sbox_eq x

/-- `shift_sub_rows` is the substitution layer: each of the sixteen places is compared with
the shift of the rows. -/
theorem view_shift_sub (st : ByteBlock) : view (shiftSubRows st) = layers.sub (view st) := by
  have table : sBox = ByteField.sBox := funext s_box_eq
  rw [shiftSubRows, table]
  exact StateRegisters.state_ext ⟨rfl, rfl, rfl, rfl⟩ ⟨rfl, rfl, rfl, rfl⟩ ⟨rfl, rfl, rfl, rfl⟩
    ⟨rfl, rfl, rfl, rfl⟩

/-- `inv_shift_sub_rows` is the inverse substitution layer: the same comparison with the
rows shifted back. -/
theorem view_inv_shift_sub (st : ByteBlock) :
    view (invShiftSubRows st) = layers.unsub (view st) := by
  have table : isBox = ByteField.invSBox := funext is_box_eq
  rw [invShiftSubRows, table]
  exact StateRegisters.state_ext ⟨rfl, rfl, rfl, rfl⟩ ⟨rfl, rfl, rfl, rfl⟩ ⟨rfl, rfl, rfl, rfl⟩
    ⟨rfl, rfl, rfl, rfl⟩

/-- The macros compute what the hardware does, once their results are stored in a byte. One
kernel computation over all bytes; the multiplications of the field are known for the
hardware already. -/
theorem macros_eq : ∀ b : Byte,
    stored (f2 b.toNat) = StateRegisters.xtime b ∧
      stored (f3 b.toNat) = StateRegisters.xtime b ^^^ b ∧ gfm9 b = InvCipherTop.pmul9 b ∧
      gfmB b = InvCipherTop.pmulB b ∧ gfmD b = InvCipherTop.pmulD b ∧
      gfmE b = InvCipherTop.pmulE b := by
  decide +kernel

/-- So they multiply in the field, by the constants of the two mixing matrices. -/
theorem multiples (b : Byte) :
    stored (f2 b.toNat) = mul 0x02#8 b ∧ stored (f3 b.toNat) = mul 0x03#8 b ∧
      gfm9 b = mul 0x09#8 b ∧ gfmB b = mul 0x0b#8 b ∧ gfmD b = mul 0x0d#8 b ∧
        gfmE b = mul 0x0e#8 b := by
  obtain ⟨two, three, _⟩ := CipherTop.mix_coefficients b
  obtain ⟨fourteen, eleven, thirteen, nine⟩ := InvCipherTop.inv_mix_coefficients b
  rw [two, three, fourteen, eleven, thirteen, nine]
  exact macros_eq b

/-- An array whose columns are computed one after another from those of a state, by one
function for each row. Both mixing functions have this form. -/
def columnwise (g0 g1 g2 g3 : Byte → Byte → Byte → Byte → Byte) (s : State) : ByteBlock :=
  #v[g0 (s 0 0) (s 1 0) (s 2 0) (s 3 0), g1 (s 0 0) (s 1 0) (s 2 0) (s 3 0),
    g2 (s 0 0) (s 1 0) (s 2 0) (s 3 0), g3 (s 0 0) (s 1 0) (s 2 0) (s 3 0),
    g0 (s 0 1) (s 1 1) (s 2 1) (s 3 1), g1 (s 0 1) (s 1 1) (s 2 1) (s 3 1),
    g2 (s 0 1) (s 1 1) (s 2 1) (s 3 1), g3 (s 0 1) (s 1 1) (s 2 1) (s 3 1),
    g0 (s 0 2) (s 1 2) (s 2 2) (s 3 2), g1 (s 0 2) (s 1 2) (s 2 2) (s 3 2),
    g2 (s 0 2) (s 1 2) (s 2 2) (s 3 2), g3 (s 0 2) (s 1 2) (s 2 2) (s 3 2),
    g0 (s 0 3) (s 1 3) (s 2 3) (s 3 3), g1 (s 0 3) (s 1 3) (s 2 3) (s 3 3),
    g2 (s 0 3) (s 1 3) (s 2 3) (s 3 3), g3 (s 0 3) (s 1 3) (s 2 3) (s 3 3)]

/-- The rows of such an array: row `r` of every column is the function for this row. -/
theorem view_columnwise (g0 g1 g2 g3 : Byte → Byte → Byte → Byte → Byte) (s : State)
    (r c : Fin 4) : view (columnwise g0 g1 g2 g3 s) r c =
      (#v[g0, g1, g2, g3].get r) (s 0 c) (s 1 c) (s 2 c) (s 3 c) := by
  match r, c with
  | 0, 0 | 0, 1 | 0, 2 | 0, 3 | 1, 0 | 1, 1 | 1, 2 | 1, 3 | 2, 0 | 2, 1 | 2, 2 | 2, 3
  | 3, 0 | 3, 1 | 3, 2 | 3, 3 => rfl

/-- The mixing layer, row by row, with the coefficients of the circulant matrix spelled
out. -/
theorem mix_rows (s : State) (r c : Fin 4) : layers.mix s r c =
    mixCoefficient (0 - r) (s 0 c) ^^^ mixCoefficient (1 - r) (s 1 c) ^^^
      mixCoefficient (2 - r) (s 2 c) ^^^ mixCoefficient (3 - r) (s 3 c) :=
  Circulant.circulant_by_row mixCoefficient (fun i => s i c) r

/-- The inverse mixing layer, row by row, with the coefficients of the circulant matrix
spelled out. -/
theorem unmix_rows (s : State) (r c : Fin 4) : layers.unmix s r c =
    invMixCoefficient (0 - r) (s 0 c) ^^^ invMixCoefficient (1 - r) (s 1 c) ^^^
      invMixCoefficient (2 - r) (s 2 c) ^^^ invMixCoefficient (3 - r) (s 3 c) :=
  Circulant.circulant_by_row invMixCoefficient (fun i => s i c) r

/-- `mix_sub_columns` is the mixing layer after the substitution layer. Proof: both sides
are columnwise, and the tables hold the products of substituted bytes. -/
theorem view_mix_sub (st : ByteBlock) :
    view (mixSubColumns st) = layers.mix (layers.sub (view st)) := by
  have columns : mixSubColumns st =
      columnwise (fun a b c d => gfm2Sb a ^^^ gfm3Sb b ^^^ sBox c ^^^ sBox d)
        (fun a b c d => sBox a ^^^ gfm2Sb b ^^^ gfm3Sb c ^^^ sBox d)
        (fun a b c d => sBox a ^^^ sBox b ^^^ gfm2Sb c ^^^ gfm3Sb d)
        (fun a b c d => gfm3Sb a ^^^ sBox b ^^^ sBox c ^^^ gfm2Sb d) (shiftRows (view st)) :=
    rfl
  have double (x : Byte) : gfm2Sb x = mul 0x02#8 (sBox x) := (multiples (sBox x)).1
  have triple (x : Byte) : gfm3Sb x = mul 0x03#8 (sBox x) := (multiples (sBox x)).2.1
  funext r c
  match r with
  | 0 | 1 | 2 | 3 =>
    rw [columns, view_columnwise, mix_rows]
    simp only [double, triple, s_box_eq, Fin.isValue, Fin.reduceSub, mixCoefficient,
      ByteField.one_mul]
    rfl

/-- `inv_mix_sub_columns` is the inverse substitution layer after the inverse mixing layer.
Proof: as for the other direction; the places written are the rows shifted back. -/
theorem view_inv_mix_sub (st : ByteBlock) :
    view (invMixSubColumns st) = layers.unsub (layers.unmix (view st)) := by
  have columns : invMixSubColumns st = invShiftSubRows
      (columnwise (fun a b c d => gfmE a ^^^ gfmB b ^^^ gfmD c ^^^ gfm9 d)
        (fun a b c d => gfm9 a ^^^ gfmE b ^^^ gfmB c ^^^ gfmD d)
        (fun a b c d => gfmD a ^^^ gfm9 b ^^^ gfmE c ^^^ gfmB d)
        (fun a b c d => gfmB a ^^^ gfmD b ^^^ gfm9 c ^^^ gfmE d) (view st)) :=
    rfl
  have nine (x : Byte) := (multiples x).2.2.1
  have b (x : Byte) := (multiples x).2.2.2.1
  have d (x : Byte) := (multiples x).2.2.2.2.1
  have e (x : Byte) := (multiples x).2.2.2.2.2
  rw [columns, view_inv_shift_sub]
  refine congrArg layers.unsub ?_
  funext r c
  match r with
  | 0 | 1 | 2 | 3 =>
    rw [view_columnwise, unmix_rows]
    simp only [nine, b, d, e]
    rfl

/-!
## Words of bytes
-/

/-- Words add byte by byte. -/
theorem of_bytes_xor (a0 a1 a2 a3 b0 b1 b2 b3 : Byte) :
    ofBytes (a0 ^^^ b0) (a1 ^^^ b1) (a2 ^^^ b2) (a3 ^^^ b3) =
      ofBytes a0 a1 a2 a3 ^^^ ofBytes b0 b1 b2 b3 := by
  have joined : ((a0 ++ a1 ++ a2 ++ a3) ^^^ (b0 ++ b1 ++ b2 ++ b3) : BitVec (8 + 8 + 8 + 8)) =
      (a0 ^^^ b0) ++ (a1 ^^^ b1) ++ (a2 ^^^ b2) ++ (a3 ^^^ b3) := by
    rw [BitVec.xor_append, BitVec.xor_append, BitVec.xor_append]
  exact joined.symm

/-- The bytes of a word of an array are four entries of it in a row. -/
theorem word_byte_word (k : Vector Byte n) (i : Nat) (r : Fin 4) :
    wordByte (word k i) r = byte k (4 * i + r.val) :=
  word_byte_of_bytes (fun r => byte k (4 * i + r.val)) r

/-- A rotated word of bytes: the first byte goes to the end. -/
theorem rot_word_of_bytes (b0 b1 b2 b3 : Byte) :
    rotWord (ofBytes b0 b1 b2 b3) = ofBytes b1 b2 b3 b0 := by
  have bytes (r : Fin 4) := word_byte_of_bytes #v[b0, b1, b2, b3].get r
  exact congr (congr (congr (congrArg ofBytes (bytes 1)) (bytes 2)) (bytes 3)) (bytes 0)

/-- A substituted word of bytes, in the table of the library. -/
theorem sub_word_of_bytes (b0 b1 b2 b3 : Byte) :
    subWord (ofBytes b0 b1 b2 b3) = ofBytes (sBox b0) (sBox b1) (sBox b2) (sBox b3) := by
  have bytes (r : Fin 4) := congrArg ByteField.sBox (word_byte_of_bytes #v[b0, b1, b2, b3].get r)
  rw [s_box_eq, s_box_eq, s_box_eq, s_box_eq]
  exact congr (congr (congr (congrArg ofBytes (bytes 0)) (bytes 1)) (bytes 2)) (bytes 3)

/-- A constant is added to the first byte and leaves the other three alone. -/
theorem of_bytes_constant (b0 b1 b2 b3 rc : Byte) :
    ofBytes (b0 ^^^ rc) b1 b2 b3 = ofBytes b0 b1 b2 b3 ^^^ ofBytes rc 0#8 0#8 0#8 := by
  rw [← of_bytes_xor, BitVec.xor_zero, BitVec.xor_zero, BitVec.xor_zero]

/-- The constant of the next group is the next power of `x`, since the macro doubles it. -/
theorem next_rc (b : Byte) : stored (f2 b.toNat) = ByteField.xtime b :=
  (macros_eq b).1.trans (StateRegisters.xtime_eq b)

/-- The words of a key start its schedule, where they are the key itself. -/
theorem key_schedule_key_words (key : Vector Byte n) {i : Nat}
    (inside : i < (keyWords key).length) : keySchedule (keyWords key) i = word key i := by
  rw [key_schedule_first _ inside]
  simp only [keyWords, List.length_map, List.length_range] at inside
  simp [keyWords, inside]

end AesCore.ByteCipher
