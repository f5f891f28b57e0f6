import AesCore.Fallible
import AesCore.RijndaelTables

/-!
# The rounds of the word-oriented cipher

A full round of `aes_core.c` looks up one byte of each of four words of the state in one of
four tables and adds the four words it finds to a word of the round key. In the last round
four masks select one byte of each word found.

The type `u32` is `unsigned long`, which has 64 bits in the programs that were built from
this file. The leading byte of a word is looked up by a shift without a mask, so the index
stays inside the table only as long as no word of the state exceeds 32 bits. Here an index
outside a table or outside the key schedule makes a computation fail, and the words of
round keys and states are shown to be widened words of 32 bits.
-/

namespace AesCore.Rijndael

open ByteField (Byte)
open Fips197
open Fallible (Returns)

/-- Type `u32`, which is `unsigned long` and has 64 bits here. The width matters where a
byte is selected by a shift alone. -/
abbrev ULong := BitVec 64

/-- The bytes of the caller's buffers, by address. Input and output are addresses in one
memory, so that they may overlap. -/
abbrev Memory := Nat → Byte

/-- The array `rd_key` of a key, with room for fourteen rounds. -/
abbrev Schedule := Vector ULong 60

/-- The variables `s0` to `s3`, or `t0` to `t3`. -/
abbrev Words := Vector ULong 4

/-- Macro `GETU32`: four bytes, the first of them highest. The upper half of the word stays
zero. -/
def getU32 (mem : Memory) (p : Nat) : ULong :=
  (mem (p + 3)).setWidth 64 ^^^ ((mem (p + 2)).setWidth 64 <<< 8) ^^^
    ((mem (p + 1)).setWidth 64 <<< 16) ^^^ ((mem p).setWidth 64 <<< 24)

/-- Macro `PUTU32`: the four low bytes of a word, the highest of them first. What a wider
word holds above them is dropped. -/
def putU32 (mem : Memory) (c : Nat) (s : ULong) : Memory :=
  let mem := Function.update mem (c + 3) (s.setWidth 8)
  let mem := Function.update mem (c + 2) ((s >>> 8).setWidth 8)
  let mem := Function.update mem (c + 1) ((s >>> 16).setWidth 8)
  Function.update mem c ((s >>> 24).setWidth 8)

/-- A table entry, read as a `u32`. An index that is not a byte fails: the source would read
behind the table. -/
def lookup (table : Table) (i : ULong) : Option ULong :=
  if i.toNat < 256 then some ((table (i.setWidth 8)).setWidth 64) else none

/-- The word `rk[i]`. An index outside the array fails. -/
def read (rk : Schedule) (i : Nat) : Option ULong := rk[i]?

/-- An assignment to `rk[i]`. An index outside the array fails. -/
def write (rk : Schedule) (i : Nat) (w : ULong) : Option Schedule :=
  if i < 60 then some (rk.setIfInBounds i w) else none

/-- The sum of one entry each of four tables. It fails as soon as one index is outside. -/
def tableSum (t0 t1 t2 t3 : Table) (i0 i1 i2 i3 : ULong) : Option ULong := do
  let x0 ← lookup t0 i0
  let x1 ← lookup t1 i1
  let x2 ← lookup t2 i2
  let x3 ← lookup t3 i3
  return x0 ^^^ x1 ^^^ x2 ^^^ x3

/-- The sum of four entries of one table, each masked to another byte. It fails as soon as
one index is outside. -/
def maskedSum (t4 : Table) (i0 i1 i2 i3 : ULong) : Option ULong := do
  let x0 ← lookup t4 i0
  let x1 ← lookup t4 i1
  let x2 ← lookup t4 i2
  let x3 ← lookup t4 i3
  return (x0 &&& 0xff000000#64) ^^^ (x1 &&& 0x00ff0000#64) ^^^ (x2 &&& 0x0000ff00#64) ^^^
    (x3 &&& 0x000000ff#64)

/-- The sum of a word of the round key and of what a lookup finds at the first byte of `a`,
the second of `b`, the third of `c` and the fourth of `d`. The first byte is what a shift
leaves; the others are masked. -/
def keyedWord (sum : ULong → ULong → ULong → ULong → Option ULong) (a b c d : ULong)
    (rk : Schedule) (i : Nat) : Option ULong := do
  let x ← sum (a >>> 24) ((b >>> 16) &&& 0xff#64) ((c >>> 8) &&& 0xff#64) (d &&& 0xff#64)
  let k ← read rk i
  return x ^^^ k

/-- Four words of `AES_encrypt` with the round key at `rk[i]`. The words of the state are
taken in the order of the shifted rows. -/
def encryptWords (sum : ULong → ULong → ULong → ULong → Option ULong) (rk : Schedule) (i : Nat)
    (s : Words) : Option Words := do
  let t0 ← keyedWord sum (s.get 0) (s.get 1) (s.get 2) (s.get 3) rk i
  let t1 ← keyedWord sum (s.get 1) (s.get 2) (s.get 3) (s.get 0) rk (i + 1)
  let t2 ← keyedWord sum (s.get 2) (s.get 3) (s.get 0) (s.get 1) rk (i + 2)
  let t3 ← keyedWord sum (s.get 3) (s.get 0) (s.get 1) (s.get 2) rk (i + 3)
  return #v[t0, t1, t2, t3]

/-- Four words of `AES_decrypt` with the round key at `rk[i]`. The words of the state are
taken in the opposite order. -/
def decryptWords (sum : ULong → ULong → ULong → ULong → Option ULong) (rk : Schedule) (i : Nat)
    (s : Words) : Option Words := do
  let t0 ← keyedWord sum (s.get 0) (s.get 3) (s.get 2) (s.get 1) rk i
  let t1 ← keyedWord sum (s.get 1) (s.get 0) (s.get 3) (s.get 2) rk (i + 1)
  let t2 ← keyedWord sum (s.get 2) (s.get 1) (s.get 0) (s.get 3) rk (i + 2)
  let t3 ← keyedWord sum (s.get 3) (s.get 2) (s.get 1) (s.get 0) rk (i + 3)
  return #v[t0, t1, t2, t3]

/-- A full round of `AES_encrypt`, with the tables of products. -/
def encryptRound : Schedule → Nat → Words → Option Words := encryptWords (tableSum te0 te1 te2 te3)

/-- The last round of `AES_encrypt`, with the table of repeated bytes. -/
def encryptLast : Schedule → Nat → Words → Option Words := encryptWords (maskedSum te4)

/-- A full round of `AES_decrypt`, with the tables of products. -/
def decryptRound : Schedule → Nat → Words → Option Words := decryptWords (tableSum td0 td1 td2 td3)

/-- The last round of `AES_decrypt`, with the table of repeated bytes. -/
def decryptLast : Schedule → Nat → Words → Option Words := decryptWords (maskedSum td4)

/-- The block at an address, with the first round key added. All sixteen bytes are read
before anything is written. -/
def addFirst (mem : Memory) (input : Nat) (rk : Schedule) : Option Words := do
  let k0 ← read rk 0
  let k1 ← read rk 1
  let k2 ← read rk 2
  let k3 ← read rk 3
  return #v[getU32 mem input ^^^ k0, getU32 mem (input + 4) ^^^ k1, getU32 mem (input + 8) ^^^ k2,
    getU32 mem (input + 12) ^^^ k3]

/-- Four words are put out, one after another. The source puts each out as soon as it is
computed, but none of them is computed from the output. -/
def putWords (mem : Memory) (output : Nat) (s : Words) : Memory :=
  let mem := putU32 mem output (s.get 0)
  let mem := putU32 mem (output + 4) (s.get 1)
  let mem := putU32 mem (output + 8) (s.get 2)
  putU32 mem (output + 12) (s.get 3)

/-!
## Widened words
-/

/-- A word as a `u32`, with zeros above it. All words of round keys and states are of this
kind. -/
def widen (w : Word) : ULong := w.setWidth 64

/-- Widened words are added as words are. -/
theorem widen_xor (v w : Word) : widen v ^^^ widen w = widen (v ^^^ w) := BitVec.setWidth_xor.symm

/-- A byte of a word, by shifting it down. -/
theorem shifted_byte (w : Word) {r : Fin 4} {k : Nat} (position : k = 24 - 8 * r.val) :
    (widen w >>> k).setWidth 8 = wordByte w r := by
  rw [widen, ← BitVec.setWidth_ushiftRight (by omega), BitVec.setWidth_setWidth_of_le _ (by omega),
    BitVec.setWidth_ushiftRight_eq_extractLsb, wordByte, position]

/-- A masked index is inside the table, whatever the word is. -/
theorem lookup_masked (table : Table) (i : ULong) :
    lookup table (i &&& 0xff#64) = some (widen (table (i.setWidth 8))) := by
  have inside : (i &&& 0xff#64).toNat < 256 := by
    rw [BitVec.toNat_and]
    exact Nat.lt_of_le_of_lt Nat.and_le_right (by decide)
  have same : (i &&& 0xff#64).setWidth 8 = i.setWidth 8 := by
    rw [BitVec.setWidth_and, show (0xff#64).setWidth 8 = BitVec.allOnes 8 from rfl,
      BitVec.and_allOnes]
  rw [lookup, if_pos inside, same]
  rfl

/-- The leading byte of a widened word needs no mask. For a word that exceeds 32 bits this
would fail. -/
theorem lookup_leading (table : Table) (w : Word) :
    lookup table (widen w >>> 24) = some (widen (table (wordByte w 0))) := by
  have inside : (widen w >>> 24).toNat < 256 := by
    have bounded : (widen w).toNat < 2 ^ 32 := by
      rw [widen, BitVec.toNat_setWidth_of_le (by omega)]
      exact w.isLt
    rw [BitVec.toNat_ushiftRight, Nat.shiftRight_eq_div_pow]
    omega
  rw [lookup, if_pos inside, shifted_byte w (r := 0) (k := 24) rfl]
  rfl

/-- A word is looked up byte by byte, each of them as the source selects it. -/
theorem lookup_bytes (table : Table) (w : Word) :
    lookup table (widen w >>> 24) = some (widen (table (wordByte w 0))) ∧
      lookup table ((widen w >>> 16) &&& 0xff#64) = some (widen (table (wordByte w 1))) ∧
      lookup table ((widen w >>> 8) &&& 0xff#64) = some (widen (table (wordByte w 2))) ∧
      lookup table (widen w &&& 0xff#64) = some (widen (table (wordByte w 3))) := by
  refine ⟨lookup_leading table w, ?_, ?_, ?_⟩
  · rw [lookup_masked, shifted_byte w (r := 1) (k := 16) rfl]
  · rw [lookup_masked, shifted_byte w (r := 2) (k := 8) rfl]
  · rw [lookup_masked, ← shifted_byte w (r := 3) (k := 0) rfl, BitVec.ushiftRight_zero]

/-- The bytes of a sum are the sums of the bytes. -/
theorem word_byte_xor (v w : Word) (r : Fin 4) :
    wordByte (v ^^^ w) r = wordByte v r ^^^ wordByte w r :=
  BitVec.extractLsb'_xor

/-- The bytes of a masked word are the masked bytes. -/
theorem word_byte_and (v w : Word) (r : Fin 4) :
    wordByte (v &&& w) r = wordByte v r &&& wordByte w r :=
  BitVec.extractLsb'_and

/-- Four entries are added as words, if all four lookups find theirs. -/
theorem table_sum_found {t0 t1 t2 t3 : Table} {i0 i1 i2 i3 : ULong} {x0 x1 x2 x3 : Word}
    (first : lookup t0 i0 = some (widen x0)) (second : lookup t1 i1 = some (widen x1))
    (third : lookup t2 i2 = some (widen x2)) (fourth : lookup t3 i3 = some (widen x3)) :
    tableSum t0 t1 t2 t3 i0 i1 i2 i3 = some (widen (x0 ^^^ x1 ^^^ x2 ^^^ x3)) := by
  rw [tableSum, first, second, third, fourth, ← widen_xor, ← widen_xor, ← widen_xor]
  rfl

/-- The masks put four bytes together, each from another word. -/
theorem masked_bytes (x0 x1 x2 x3 : Word) :
    (x0 &&& 0xff000000#32) ^^^ (x1 &&& 0x00ff0000#32) ^^^ (x2 &&& 0x0000ff00#32) ^^^
        (x3 &&& 0x000000ff#32) =
      ofBytes (wordByte x0 0) (wordByte x1 1) (wordByte x2 2) (wordByte x3 3) := by
  have masks : ∀ r : Fin 4, wordByte 0xff000000#32 r = (if r = 0 then BitVec.allOnes 8 else 0#8) ∧
      wordByte 0x00ff0000#32 r = (if r = 1 then BitVec.allOnes 8 else 0#8) ∧
      wordByte 0x0000ff00#32 r = (if r = 2 then BitVec.allOnes 8 else 0#8) ∧
      wordByte 0x000000ff#32 r = (if r = 3 then BitVec.allOnes 8 else 0#8) := by
    decide
  apply word_ext
  intro r
  have formed := word_byte_of_bytes
    #v[wordByte x0 0, wordByte x1 1, wordByte x2 2, wordByte x3 3].get r
  refine Eq.trans ?_ formed.symm
  obtain ⟨m0, m1, m2, m3⟩ := masks r
  rw [word_byte_xor, word_byte_xor, word_byte_xor, word_byte_and, word_byte_and, word_byte_and,
    word_byte_and, m0, m1, m2, m3]
  match r with
  | 0 | 1 | 2 | 3 =>
    simp only [Fin.isValue, Fin.reduceEq, ↓reduceIte, BitVec.and_allOnes, BitVec.and_zero,
      BitVec.xor_zero, BitVec.zero_xor]
    rfl

/-- Four masked entries are put together, if all four lookups find theirs. -/
theorem masked_sum_found {t4 : Table} {i0 i1 i2 i3 : ULong} {x0 x1 x2 x3 : Word}
    (first : lookup t4 i0 = some (widen x0)) (second : lookup t4 i1 = some (widen x1))
    (third : lookup t4 i2 = some (widen x2)) (fourth : lookup t4 i3 = some (widen x3)) :
    maskedSum t4 i0 i1 i2 i3 =
      some (widen (ofBytes (wordByte x0 0) (wordByte x1 1) (wordByte x2 2) (wordByte x3 3))) := by
  have masked (x m : Word) : widen x &&& widen m = widen (x &&& m) := BitVec.setWidth_and.symm
  rw [maskedSum, first, second, third, fourth, ← masked_bytes, ← widen_xor, ← widen_xor,
    ← widen_xor, ← masked, ← masked, ← masked, ← masked]
  rfl

/-- A state held in four variables: each of them is a column, widened. -/
def Shows (s : Words) (state : State) : Prop := ∀ c : Fin 4, s.get c = widen (column state c)

/-- A round key held from `rk[i]` on: four words, widened. -/
def Holds (rk : Schedule) (i : Nat) (key : Fin 4 → Word) : Prop :=
  ∀ c : Fin 4, read rk (i + c.val) = some (widen (key c))

/-- What is looked up at four words, as a function of these words. A round is the same for
any lookup that has such a function. -/
def Finds (sum : ULong → ULong → ULong → ULong → Option ULong)
    (f : Word → Word → Word → Word → Word) : Prop :=
  ∀ a b c d, sum (widen a >>> 24) ((widen b >>> 16) &&& 0xff#64) ((widen c >>> 8) &&& 0xff#64)
    (widen d &&& 0xff#64) = some (widen (f a b c d))

/-- Four tables find their entries at four bytes. -/
theorem table_sum_finds (t : Fin 4 → Table) : Finds (tableSum (t 0) (t 1) (t 2) (t 3))
    fun a b c d => t 0 (wordByte a 0) ^^^ t 1 (wordByte b 1) ^^^ t 2 (wordByte c 2) ^^^
      t 3 (wordByte d 3) :=
  fun a b c d => table_sum_found (lookup_bytes _ a).1 (lookup_bytes _ b).2.1
    (lookup_bytes _ c).2.2.1 (lookup_bytes _ d).2.2.2

/-- A table of repeated bytes substitutes four bytes. -/
theorem masked_sum_finds {t4 : Table} {box : Byte → Byte}
    (repeats : ∀ x r, wordByte (t4 x) r = box x) : Finds (maskedSum t4)
      fun a b c d => ofBytes (box (wordByte a 0)) (box (wordByte b 1)) (box (wordByte c 2))
        (box (wordByte d 3)) := by
  intro a b c d
  rw [masked_sum_found (lookup_bytes t4 a).1 (lookup_bytes t4 b).2.1 (lookup_bytes t4 c).2.2.1
    (lookup_bytes t4 d).2.2.2, repeats, repeats, repeats, repeats]

section Rounds
variable {sum : ULong → ULong → ULong → ULong → Option ULong}
  {f : Word → Word → Word → Word → Word} {rk : Schedule} {i : Nat} {s : Words}
  {state result : State} {key : Fin 4 → Word}

/-- One word with its part of the round key: nothing fails, and the sum is a widened word
again. -/
theorem keyed_word_found (finds : Finds sum f) {k : Word} (held : read rk i = some (widen k))
    (a b c d : Word) : keyedWord sum (widen a) (widen b) (widen c) (widen d) rk i =
      some (widen (f a b c d ^^^ k)) := by
  rw [keyedWord, finds, held, ← widen_xor]
  rfl

/-- Four words that are found show a state with the round key added. -/
theorem shows_added {t : Words}
    (found : ∀ c : Fin 4, t.get c = widen (column result c ^^^ key c)) :
    Shows t (layers.add key result) := by
  intro c
  rw [found]
  refine congrArg widen (word_ext fun r => ?_)
  rw [word_byte_xor, word_byte_column, word_byte_column]
  rfl

/-- Four words that are computed one after another, each of which succeeds, show a state. -/
theorem collected_show {word : Fin 4 → Option ULong}
    (found : ∀ c, word c = some (widen (column result c ^^^ key c))) :
    Returns (do
      let t0 ← word 0
      let t1 ← word 1
      let t2 ← word 2
      let t3 ← word 3
      return #v[t0, t1, t2, t3]) fun t => Shows t (layers.add key result) := by
  rw [found, found, found, found]
  refine Fallible.returns_some (shows_added fun c => ?_)
  match c with
  | 0 | 1 | 2 | 3 => rfl

/-- Four words of an encryption: byte `i` of word `c` is looked up in word `c + i`. So it is
enough to know what such a choice of bytes makes of a state, column by column. -/
theorem encrypt_words_show (finds : Finds sum f) (shown : Shows s state) (held : Holds rk i key)
    (columns : ∀ c, column result c =
      f (column state (c + 0)) (column state (c + 1)) (column state (c + 2))
        (column state (c + 3))) :
    Returns (encryptWords sum rk i s) fun t => Shows t (layers.add key result) := by
  have word (c : Fin 4) : keyedWord sum (s.get (c + 0)) (s.get (c + 1)) (s.get (c + 2))
      (s.get (c + 3)) rk (i + c.val) = some (widen (column result c ^^^ key c)) := by
    rw [shown, shown, shown, shown, keyed_word_found finds (held c), columns]
  exact collected_show word

/-- Four words of a decryption: byte `i` of word `c` is looked up in word `c - i`. The same
remark holds for this choice. -/
theorem decrypt_words_show (finds : Finds sum f) (shown : Shows s state) (held : Holds rk i key)
    (columns : ∀ c, column result c =
      f (column state (c - 0)) (column state (c - 1)) (column state (c - 2))
        (column state (c - 3))) :
    Returns (decryptWords sum rk i s) fun t => Shows t (layers.add key result) := by
  have word (c : Fin 4) : keyedWord sum (s.get (c - 0)) (s.get (c - 1)) (s.get (c - 2))
      (s.get (c - 3)) rk (i + c.val) = some (widen (column result c ^^^ key c)) := by
    rw [shown, shown, shown, shown, keyed_word_found finds (held c), columns]
  exact collected_show word

end Rounds

/-- Four tables of multiples of substituted bytes hold the columns of a mixed state. Proof:
row by row, through the circulant form of the mixing. -/
theorem table_words (mixed : State) (bytes : Fin 4 → Byte) {t : Fin 4 → Table}
    {coefficient : Fin 4 → Byte → Byte} {box : Byte → Byte} {c : Fin 4}
    (products : ∀ i x r, wordByte (t i x) r = coefficient (i - r) (box x))
    (rows : ∀ r, mixed r c = Circulant.circulant coefficient (fun i => box (bytes i)) r) :
    column mixed c = t 0 (bytes 0) ^^^ t 1 (bytes 1) ^^^ t 2 (bytes 2) ^^^ t 3 (bytes 3) := by
  apply word_ext
  intro r
  rw [word_byte_column, rows, Circulant.circulant_by_row, word_byte_xor, word_byte_xor,
    word_byte_xor, products, products, products, products]

section Layers
variable {rk : Schedule} {i : Nat} {s : Words} {state : State} {key : Fin 4 → Word}

/-- A full round of `AES_encrypt` is one of the standard. It does not fail on a state and a
round key held in widened words, and the state it leaves is held so again. -/
theorem encrypt_round_shows (shown : Shows s state) (held : Holds rk i key) :
    Returns (encryptRound rk i s)
      fun t => Shows t (layers.add key (layers.mix (layers.sub state))) := by
  refine encrypt_words_show (table_sum_finds te) shown held fun c => ?_
  rw [word_byte_column, word_byte_column, word_byte_column, word_byte_column]
  exact table_words (layers.mix (layers.sub state)) (fun i => state i (c + i)) word_byte_te
    fun r => rfl

/-- A full round of `AES_decrypt` is one of the inverse cipher in its equivalent form: the
key is added after the inverse mixing. -/
theorem decrypt_round_shows (shown : Shows s state) (held : Holds rk i key) :
    Returns (decryptRound rk i s)
      fun t => Shows t (layers.add key (layers.unmix (layers.unsub state))) := by
  refine decrypt_words_show (table_sum_finds td) shown held fun c => ?_
  rw [word_byte_column, word_byte_column, word_byte_column, word_byte_column]
  exact table_words (layers.unmix (layers.unsub state)) (fun i => state i (c - i)) word_byte_td
    fun r => rfl

/-- The last round of `AES_encrypt` does not mix. -/
theorem encrypt_last_shows (shown : Shows s state) (held : Holds rk i key) :
    Returns (encryptLast rk i s) fun t => Shows t (layers.add key (layers.sub state)) := by
  refine encrypt_words_show (masked_sum_finds word_byte_te4) shown held fun c => ?_
  rw [word_byte_column, word_byte_column, word_byte_column, word_byte_column]
  rfl

/-- Neither does that of `AES_decrypt`. -/
theorem decrypt_last_shows (shown : Shows s state) (held : Holds rk i key) :
    Returns (decryptLast rk i s) fun t => Shows t (layers.add key (layers.unsub state)) := by
  refine decrypt_words_show (masked_sum_finds word_byte_td4) shown held fun c => ?_
  rw [word_byte_column, word_byte_column, word_byte_column, word_byte_column]
  rfl

end Layers

/-!
## Buffers
-/

/-- The four bytes at an address as the standard writes them. -/
def wordAt (mem : Memory) (p : Nat) : Word :=
  ofBytes (mem p) (mem (p + 1)) (mem (p + 2)) (mem (p + 3))

/-- The sixteen bytes at an address as the standard writes them. -/
def blockAt (mem : Memory) (p : Nat) : Block :=
  ofWords (wordAt mem p) (wordAt mem (p + 4)) (wordAt mem (p + 8)) (wordAt mem (p + 12))

/-- A byte is appended to a wide word by a shift, because the places below are empty
then. -/
theorem append_byte {m : Nat} (a : BitVec m) (b : Byte) :
    (a ++ b).setWidth 64 = (a.setWidth 64 <<< 8) ^^^ b.setWidth 64 := by
  apply BitVec.eq_of_getLsbD_eq
  intro i inside
  have shifted : i - 8 < 64 := by omega
  simp only [BitVec.getLsbD_xor, BitVec.getLsbD_shiftLeft, BitVec.getLsbD_setWidth,
    BitVec.getLsbD_append, inside, shifted, decide_true, Bool.true_and]
  by_cases low : i < 8
  · simp [low]
  · simp [low, BitVec.getLsbD_of_ge b i (by omega)]

/-- `GETU32` reads a word with its first byte leftmost, widened. -/
theorem get_u32_eq (mem : Memory) (p : Nat) : getU32 mem p = widen (wordAt mem p) := by
  have joined : widen (wordAt mem p) =
      (mem p ++ mem (p + 1) ++ mem (p + 2) ++ mem (p + 3)).setWidth 64 := rfl
  have reversed (a b c d : ULong) : a ^^^ b ^^^ c ^^^ d = d ^^^ c ^^^ b ^^^ a := by ac_rfl
  rw [joined, append_byte, append_byte, append_byte]
  simp only [BitVec.shiftLeft_xor_distrib, ← BitVec.shiftLeft_add, Nat.reduceAdd]
  exact reversed _ _ _ _

/-- `PUTU32` writes the word that is put. -/
theorem word_at_put (mem : Memory) (c : Nat) (w : Word) :
    wordAt (putU32 mem c (widen w)) c = w := by
  have byte3 : putU32 mem c (widen w) (c + 3) = (widen w >>> 0).setWidth 8 := by
    simp [putU32]
  have byte2 : putU32 mem c (widen w) (c + 2) = (widen w >>> 8).setWidth 8 := by
    simp [putU32, Function.update]
  have byte1 : putU32 mem c (widen w) (c + 1) = (widen w >>> 16).setWidth 8 := by
    simp [putU32, Function.update]
  have byte0 : putU32 mem c (widen w) c = (widen w >>> 24).setWidth 8 := by
    simp [putU32]
  rw [wordAt, byte0, byte1, byte2, byte3, shifted_byte w (r := 0) (k := 24) rfl,
    shifted_byte w (r := 1) (k := 16) rfl, shifted_byte w (r := 2) (k := 8) rfl,
    shifted_byte w (r := 3) (k := 0) rfl, of_bytes_word_byte]

/-- `PUTU32` writes nothing else: every address outside the four bytes keeps its byte. -/
theorem put_u32_frame (mem : Memory) (c : Nat) (s : ULong) {a : Nat}
    (outside : a < c ∨ c + 4 ≤ a) : putU32 mem c s a = mem a := by
  simp (disch := omega) only [putU32, Function.update_of_ne]

/-- So a word apart from it is not changed. -/
theorem word_at_frame (mem : Memory) (c : Nat) (s : ULong) {p : Nat}
    (apart : p + 4 ≤ c ∨ c + 4 ≤ p) : wordAt (putU32 mem c s) p = wordAt mem p := by
  simp (disch := omega) only [wordAt, put_u32_frame]

/-- The words of a state are put out as its block, and nothing else changes. Proof: each of
the four words is apart from the other three. -/
theorem put_words_eq (mem : Memory) (output : Nat) {s : Words} {state : State}
    (shown : Shows s state) :
    blockAt (putWords mem output s) output = ofState state ∧
      ∀ a, a < output ∨ output + 16 ≤ a → putWords mem output s a = mem a := by
  constructor
  · rw [putWords, shown, shown, shown, shown]
    simp (disch := omega) only [blockAt, word_at_frame, word_at_put]
    rfl
  · intro a outside
    simp (disch := omega) only [putWords, put_u32_frame]

/-- The words of a block are the columns of the state it becomes. -/
theorem column_to_state (block : Block) (c : Fin 4) :
    column (toState block) c = blockWord block c :=
  of_bytes_word_byte (blockWord block c)

/-- A block is read with the first round key added, as the standard begins. -/
theorem add_first_shows (mem : Memory) (input : Nat) {rk : Schedule} {key : Fin 4 → Word}
    (held : Holds rk 0 key) : Returns (addFirst mem input rk)
      fun s => Shows s (layers.add key (toState (blockAt mem input))) := by
  have k0 : read rk 0 = _ := held 0
  have k1 : read rk 1 = _ := held 1
  have k2 : read rk 2 = _ := held 2
  have k3 : read rk 3 = _ := held 3
  rw [addFirst, k0, k1, k2, k3]
  simp only [Option.bind_eq_bind, Option.bind_some, get_u32_eq, widen_xor]
  have words (c : Fin 4) : column (toState (blockAt mem input)) c =
      #v[wordAt mem input, wordAt mem (input + 4), wordAt mem (input + 8),
        wordAt mem (input + 12)].get c :=
    (column_to_state (blockAt mem input) c).trans (block_word_of_words
      #v[wordAt mem input, wordAt mem (input + 4), wordAt mem (input + 8),
        wordAt mem (input + 12)].get c)
  refine Fallible.returns_some (shows_added fun c => ?_)
  rw [words]
  match c with
  | 0 | 1 | 2 | 3 => rfl

end AesCore.Rijndael
