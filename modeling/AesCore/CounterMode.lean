import Mathlib.Algebra.Group.Nat.Defs
import AesCore.Base64
import AesCore.Keystream
import AesCore.PythonAes

/-!
# The Python counter mode

`encrypt` and `decrypt` of `aes.py`. The password gives the key, the time gives the
first half of the counter block, and the number of a block gives the second half. A
text is a string of bytes, as in the version of the language the file is written for.

Floating point is exact on the numbers of blocks of any text shorter than `2^53` bytes,
so the rounded quotients are those of integers. `encrypt` does not cut the upper half of
the number to bytes: past `2^44` bytes of text it leaves the range of the S-box.

`decrypt` computes the upper half of the number in another way, which agrees up to block
`2^32` only.
-/

namespace AesCore.PythonAes

open ByteField (Byte)
open Fips197

/-- Function `urs`, a right shift of the low 32 bits without their sign. The branch for a
set top bit is as the program has it. -/
def urs (a b : Nat) : Nat :=
  let a := a &&& 0xffffffff
  let b := b &&& 0x1f
  if a &&& 0x80000000 ≠ 0 ∧ 0 < b then ((a >>> 1) &&& 0x7fffffff) >>> (b - 1) else a >>> b

/-- The integer of a character, which is a byte here. -/
def ord (c : Byte) : Nat := c.toNat

/-- The character of an integer below 256. Above that the program raises an exception. -/
def chr (n : Nat) : Byte := BitVec.ofNat 8 n

/-- The key that a password gives: the padded password enciphered under itself, and as much
of the result again as the key size needs. -/
def passwordKey (password : List Byte) (nBits : Nat) : List Nat :=
  let nBytes := nBits / 8
  let pwBytes := (List.range nBytes).map fun i =>
    if i ≥ password.length then 0 else ord (password.getD i 0#8)
  let key := cipher pwBytes (keyExpansion pwBytes)
  key ++ key.take (nBytes - 16)

/-- The first eight entries of `counterBlock`, from the time: four bytes of the seconds, and
one byte of the milliseconds four times over. -/
def nonceEntries (seconds microsecond : Nat) : List Nat :=
  let nonce := seconds * 1000 + microsecond / 1000
  let nonceSec := nonce / 1000
  let nonceMs := nonce % 1000
  ((List.range 4).map fun i => urs nonceSec (i * 8) &&& 0xff) ++
    (List.range 4).map fun _ => nonceMs &&& 0xff

/-- The list `counterBlock` of `encrypt` for block `b`. The upper half of the number is not
cut to bytes here. -/
def encryptCounter (head : List Nat) (b : Nat) : List Nat :=
  head ++ ((List.range 4).reverse.map fun c => urs (b / 0x100000000) (c * 8)) ++
    (List.range 4).reverse.map fun c => urs b (c * 8) &&& 0xff

/-- The list `counterBlock` of `decrypt` for block `b`. Its upper half is computed
differently from that of `encrypt`. -/
def decryptCounter (head : List Nat) (b : Nat) : List Nat :=
  head ++
    ((List.range 4).reverse.map fun c => urs ((b + 1) / 0x100000000 - 1) (c * 8) &&& 0xff) ++
    (List.range 4).reverse.map fun c => urs b (c * 8) &&& 0xff

/-- The key sizes that both functions accept, in bits. -/
def KeySize (nBits : Nat) : Prop := nBits = 128 ∨ nBits = 192 ∨ nBits = 256

/-- Key sizes are recognized. -/
instance (nBits : Nat) : Decidable (KeySize nBits) :=
  inferInstanceAs (Decidable (nBits = 128 ∨ nBits = 192 ∨ nBits = 256))

/-- Function `encrypt` at the given time. Text and password are their bytes, and the result
is base64. -/
def encrypt (plaintext password : List Byte) (nBits seconds microsecond : Nat) : List Byte :=
  if ¬KeySize nBits then []
  else
    let head := nonceEntries seconds microsecond
    let ctrTxt := head.map chr
    let keySchedule := keyExpansion (passwordKey password nBits)
    let blockCount := (plaintext.length + 15) / 16
    let ciphertxt := (List.range blockCount).map fun b =>
      let cipherCntr := cipher (encryptCounter head b) keySchedule
      let blockLength := if b < blockCount - 1 then 16 else (plaintext.length - 1) % 16 + 1
      (List.range blockLength).map fun i =>
        chr (cipherCntr.getD i 0 ^^^ ord (plaintext.getD (b * 16 + i) 0#8))
    Base64.encode (ctrTxt ++ ciphertxt.flatten)

/-- Function `decrypt`. Nothing is returned where it raises an exception, on a text that is
not base64 or is too short for the first half of a counter block. -/
def decrypt (ciphertext password : List Byte) (nBits : Nat) : Option (List Byte) :=
  if ¬KeySize nBits then some []
  else
    (Base64.decode ciphertext).bind fun ciphertext =>
      if ciphertext.length < 8 then none
      else
        let head := (ciphertext.take 8).map ord
        let keySchedule := keyExpansion (passwordKey password nBits)
        let nBlocks := (ciphertext.length - 8 + 15) / 16
        let ct := (List.range nBlocks).map fun b => (ciphertext.drop (8 + b * 16)).take 16
        let plaintxt := (List.range nBlocks).map fun b =>
          let cipherCntr := cipher (decryptCounter head b) keySchedule
          (List.range (ct.getD b []).length).map fun i =>
            chr (cipherCntr.getD i 0 ^^^ ord ((ct.getD b []).getD i 0#8))
        some plaintxt.flatten

/-!
## Counter mode with the cipher of the standard
-/

/-- The bytes of a number, the most significant first, behind a nonce. This is the counter
block in the terms of the standard. -/
def counterBytes (nonce : List Byte) (number : Nat) : List Byte :=
  nonce ++ (List.range 8).reverse.map fun c => BitVec.ofNat 8 (number >>> (c * 8))

/-- Byte `i` of the keystream whose blocks have the given numbers, each enciphered behind
the nonce. -/
def stream (key nonce : List Byte) (number : Nat → Nat) (i : Nat) : Byte :=
  (blockBytes (cipherOf (keyWords key) (blockOf (counterBytes nonce (number (i / 16)))))).getD
    (i % 16) 0#8

/-- The bytes of the key that a password gives, in the terms of the standard. -/
def derivedKey (password : List Byte) (nBits : Nat) : List Byte :=
  let bytes := (List.range (nBits / 8)).map fun i => password.getD i 0#8
  let key := blockBytes (cipherOf (keyWords bytes) (blockOf bytes))
  key ++ key.take (nBits / 8 - 16)

/-- The bytes of the time, in the order in which both functions use them. -/
def nonceBytes (seconds microsecond : Nat) : List Byte :=
  let nonce := seconds * 1000 + microsecond / 1000
  ((List.range 4).map fun i => BitVec.ofNat 8 ((nonce / 1000) >>> (i * 8))) ++
    (List.range 4).map fun _ => BitVec.ofNat 8 (nonce % 1000)

/-- The number that `decrypt` gives block `b`. It is `b` below `2^32`, and zero again at
`2^32`. -/
def decryptNumber (b : Nat) : Nat :=
  ((b + 1) / 0x100000000 - 1) * 0x100000000 + b % 0x100000000

/-- The low byte of a number is its remainder by 256. -/
theorem and_byte (n : Nat) : n &&& 0xff = n % 256 := Nat.and_two_pow_sub_one_eq_mod n 8

/-- `urs` shifts the low 32 bits of a number to the right, whether the top bit is set or
not. -/
theorem urs_eq (a : Nat) {b : Nat} (bounded : b < 32) : urs a b = (a % 0x100000000) >>> b := by
  have low : a &&& 0xffffffff = a % 0x100000000 := Nat.and_two_pow_sub_one_eq_mod a 32
  have amount : b &&& 0x1f = b :=
    (Nat.and_two_pow_sub_one_eq_mod b 5).trans (Nat.mod_eq_of_lt bounded)
  have half : (a % 0x100000000) >>> 1 &&& 0x7fffffff = (a % 0x100000000) >>> 1 := by
    have small : (a % 0x100000000) >>> 1 < 0x80000000 := by
      rw [Nat.shiftRight_succ, Nat.shiftRight_zero]
      omega
    exact (Nat.and_two_pow_sub_one_eq_mod _ 31).trans (Nat.mod_eq_of_lt small)
  simp only [urs, low, amount, half]
  split
  · rename_i shifted
    rw [← Nat.shiftRight_add, Nat.add_sub_cancel' shifted.2]
  · rfl

/-- Cut to a byte, `urs` takes one byte of a number, counted from the lowest. -/
theorem urs_byte (a : Nat) {c : Nat} (bounded : c < 4) :
    urs a (c * 8) &&& 0xff = a >>> (c * 8) % 256 := by
  rw [urs_eq a (by omega), and_byte]
  match c with
  | 0 | 1 | 2 | 3 =>
    simp only [Nat.shiftRight_eq_div_pow, Nat.reduceMul, Nat.reducePow]
    omega

/-- A byte and its integer: numbers are cut to their lowest byte. -/
theorem ord_of_nat (n : Nat) : (BitVec.ofNat 8 n).toNat = n % 256 := rfl

/-- The character of the integer of a byte is that byte. -/
theorem chr_to_nat (b : Byte) : chr b.toNat = b := by
  rw [chr, BitVec.ofNat_toNat, BitVec.setWidth_eq]

/-- Adding integers of bytes adds the bytes, so the loops of both functions add a
keystream. -/
theorem chr_xor (a b : Byte) : chr (a.toNat ^^^ ord b) = a ^^^ b := by
  rw [ord, ← BitVec.toNat_xor, chr_to_nat]

/-- The first half of the counter block is made of bytes, so `decrypt` finds it in the text
as it was. -/
theorem nonce_entries_eq (seconds microsecond : Nat) :
    nonceEntries seconds microsecond = (nonceBytes seconds microsecond).map BitVec.toNat := by
  rw [nonceEntries, nonceBytes, List.map_append, List.map_map, List.map_map]
  congr 1
  · apply List.map_congr_left
    intro c member
    rw [urs_byte _ (List.mem_range.mp member)]
    rfl
  · apply List.map_congr_left
    intro c _
    rw [and_byte]
    rfl

/-- The eight bytes of a number are those of its two halves, the upper half first. -/
theorem counter_halves (nonce : List Byte) (number : Nat) :
    (counterBytes nonce number).map BitVec.toNat = nonce.map BitVec.toNat ++
      ((List.range 4).reverse.map fun c => (number / 0x100000000) >>> (c * 8) % 256) ++
      (List.range 4).reverse.map fun c => number >>> (c * 8) % 256 := by
  have eight : (List.range 8).reverse = ((List.range 4).reverse.map (· + 4)) ++
      (List.range 4).reverse := rfl
  rw [counterBytes, eight, List.map_append, List.map_append, List.map_append, ← List.append_assoc]
  refine congrArg₂ (· ++ ·) (congrArg (nonce.map BitVec.toNat ++ ·) ?_) ?_
  · rw [List.map_map, List.map_map]
    apply List.map_congr_left
    intro c _
    have shift : (c + 4) * 8 = 32 + c * 8 := by omega
    have upper : number >>> 32 = number / 0x100000000 := Nat.shiftRight_eq_div_pow number 32
    rw [Function.comp_apply, Function.comp_apply, ord_of_nat, shift, Nat.shiftRight_add, upper]
  · rw [List.map_map]
    rfl

/-- `encrypt` numbers its blocks, as long as the upper half of the number is a byte. Beyond
that an entry of the counter block would be no byte. -/
theorem encrypt_counter_eq (nonce : List Byte) {b : Nat} (bounded : b < 2 ^ 40) :
    encryptCounter (nonce.map BitVec.toNat) b = (counterBytes nonce b).map BitVec.toNat := by
  rw [encryptCounter, counter_halves]
  refine congrArg₂ (· ++ ·) (congrArg (nonce.map BitVec.toNat ++ ·) ?_) ?_
  · apply List.map_congr_left
    intro c member
    have inside : c < 4 := by simpa using member
    have quotient : b / 0x100000000 < 256 := by omega
    have small : (b / 0x100000000) >>> (c * 8) < 256 :=
      Nat.lt_of_le_of_lt (Nat.shiftRight_le _ _) quotient
    rw [urs_eq _ (by omega), Nat.mod_eq_of_lt (Nat.lt_trans quotient (by decide)),
      Nat.mod_eq_of_lt small]
  · apply List.map_congr_left
    intro c member
    exact urs_byte b (by simpa using member)

/-- `decrypt` numbers its blocks in its own way, and its counter block is made of bytes for
every block. -/
theorem decrypt_counter_eq (nonce : List Byte) (b : Nat) :
    decryptCounter (nonce.map BitVec.toNat) b =
      (counterBytes nonce (decryptNumber b)).map BitVec.toNat := by
  have high : decryptNumber b / 0x100000000 = (b + 1) / 0x100000000 - 1 := by
    rw [decryptNumber]
    omega
  have low : decryptNumber b % 0x100000000 = b % 0x100000000 := by
    rw [decryptNumber]
    omega
  rw [decryptCounter, counter_halves, high]
  refine congrArg₂ (· ++ ·) (congrArg (nonce.map BitVec.toNat ++ ·) ?_) ?_
  · apply List.map_congr_left
    intro c member
    exact urs_byte _ (by simpa using member)
  · apply List.map_congr_left
    intro c member
    have inside : c < 4 := by simpa using member
    rw [← urs_byte _ inside, urs_eq _ (by omega), urs_eq _ (by omega), low]

/-- The password gives a key of bytes, of sixteen at least. -/
theorem password_key_eq (password : List Byte) {nBits : Nat} (size : KeySize nBits) :
    passwordKey password nBits = (derivedKey password nBits).map BitVec.toNat ∧
      16 ≤ (derivedKey password nBits).length := by
  have bytes : ((List.range (nBits / 8)).map fun i =>
      if i ≥ password.length then 0 else ord (password.getD i 0#8)) =
        ((List.range (nBits / 8)).map fun i => password.getD i 0#8).map BitVec.toNat := by
    rw [List.map_map]
    apply List.map_congr_left
    intro i _
    by_cases past : i ≥ password.length
    · rw [if_pos past, Function.comp_apply, List.getD_eq_default _ _ past]
      rfl
    · rw [if_neg past]
      rfl
  have long : 16 ≤ ((List.range (nBits / 8)).map fun i => password.getD i 0#8).length := by
    rw [List.length_map, List.length_range]
    rcases size with rfl | rfl | rfl <;> decide
  constructor
  · rw [passwordKey, derivedKey, List.map_append, List.map_take]
    simp only [bytes, cipher_bytes _ _ long]
  · rw [derivedKey, List.length_append]
    simp [blockBytes, bytesOf]

/-- What the loops of both functions make of a counter block, position by position: the byte
of the cipher added to the byte of the text. -/
theorem block_entry (key counter : List Byte) (long : 16 ≤ key.length) (i : Nat) (c : Byte) :
    chr ((cipher (counter.map BitVec.toNat) (keyExpansion (key.map BitVec.toNat))).getD i 0 ^^^
      ord c) = (blockBytes (cipherOf (keyWords key) (blockOf counter))).getD i 0#8 ^^^ c := by
  rw [cipher_bytes key counter long, get_bytes, chr_xor]

/-- Blocks under the cipher of their counter blocks are one pass with a keystream, which
carries the numbers of the blocks. -/
theorem blocks_eq (key nonce text : List Byte) (number : Nat → Nat) :
    (Keystream.inBlocks 16 text.length fun b i =>
      (blockBytes (cipherOf (keyWords key)
        (blockOf (counterBytes nonce (number b))))).getD i 0#8 ^^^ text.getD (b * 16 + i) 0#8) =
      Keystream.add (stream key nonce number) text := by
  rw [Keystream.in_blocks_eq (by decide), Keystream.add]
  apply List.map_congr_left
  intro i _
  rw [Nat.div_add_mod' i 16]
  rfl

/-- The blocks of `encrypt`, whose last one may be short, are the text with its keystream
added. -/
theorem encrypt_blocks (key nonce plaintext : List Byte) (long : 16 ≤ key.length)
    (short : plaintext.length ≤ 2 ^ 44) :
    (((List.range ((plaintext.length + 15) / 16)).map fun b =>
      (List.range (if b < (plaintext.length + 15) / 16 - 1 then 16
        else (plaintext.length - 1) % 16 + 1)).map fun i =>
          chr ((cipher (encryptCounter (nonce.map BitVec.toNat) b)
            (keyExpansion (key.map BitVec.toNat))).getD i 0 ^^^
              ord (plaintext.getD (b * 16 + i) 0#8))).flatten) =
      Keystream.add (stream key nonce id) plaintext := by
  rw [← blocks_eq]
  refine congrArg List.flatten (List.map_congr_left fun b member => ?_)
  have inside : b < (plaintext.length + 15) / 16 := List.mem_range.mp member
  have length : (if b < (plaintext.length + 15) / 16 - 1 then 16
      else (plaintext.length - 1) % 16 + 1) = Keystream.blockEntries 16 plaintext.length b := by
    rw [Keystream.blockEntries]
    split <;> omega
  rw [length]
  apply List.map_congr_left
  intro i _
  rw [encrypt_counter_eq nonce (by omega), block_entry key _ long]
  rfl

/-- `encrypt` is counter mode with the cipher of the standard: the time starts the text and
the counter blocks, and block `b` is encrypted under number `b`. -/
theorem encrypt_exact (plaintext password : List Byte) {nBits : Nat} (seconds microsecond : Nat)
    (size : KeySize nBits) (short : plaintext.length ≤ 2 ^ 44) :
    encrypt plaintext password nBits seconds microsecond =
      Base64.encode (nonceBytes seconds microsecond ++
        Keystream.add (stream (derivedKey password nBits) (nonceBytes seconds microsecond) id)
          plaintext) := by
  obtain ⟨key, long⟩ := password_key_eq password size
  have characters : ((nonceBytes seconds microsecond).map BitVec.toNat).map chr =
      nonceBytes seconds microsecond := by
    rw [List.map_map]
    exact (List.map_congr_left fun c _ => chr_to_nat c).trans (List.map_id _)
  rw [encrypt, if_neg (not_not.mpr size)]
  simp only [nonce_entries_eq, key, characters, encrypt_blocks _ _ _ long short]

/-- A slice of a text behind the eight bytes of the nonce is a block of what follows
them. -/
theorem get_slice (nonce body : List Byte) (eight : nonce.length = 8) (b : Nat) :
    (((nonce ++ body).drop (8 + b * 16)).take 16).length =
        Keystream.blockEntries 16 body.length b ∧
      ∀ i, i < 16 → (((nonce ++ body).drop (8 + b * 16)).take 16).getD i 0#8 =
        body.getD (b * 16 + i) 0#8 := by
  have rest : (nonce ++ body).drop (8 + b * 16) = body.drop (b * 16) := by
    rw [← eight, List.drop_append, Nat.add_sub_cancel_left, List.drop_eq_nil_of_le (by omega),
      List.nil_append]
  rw [rest]
  constructor
  · rw [List.length_take, List.length_drop, Keystream.blockEntries]
  · intro i inside
    rw [List.getD_eq_getElem?_getD, List.getElem?_take_of_lt inside, List.getElem?_drop,
      ← List.getD_eq_getElem?_getD]

/-- `decrypt` adds the keystream of its own numbers to what follows the nonce, on every
base64 text of eight bytes or more. -/
theorem decrypt_exact (nonce body password : List Byte) {nBits : Nat} (size : KeySize nBits)
    (eight : nonce.length = 8) :
    decrypt (Base64.encode (nonce ++ body)) password nBits =
      some (Keystream.add (stream (derivedKey password nBits) nonce decryptNumber) body) := by
  obtain ⟨key, long⟩ := password_key_eq password size
  have enough : ¬(nonce ++ body).length < 8 := by
    rw [List.length_append]
    omega
  have head : ((nonce ++ body).take 8).map ord = nonce.map BitVec.toNat := by
    rw [List.take_left' eight]
    rfl
  have length : (nonce ++ body).length - 8 = body.length := by
    rw [List.length_append, eight, Nat.add_sub_cancel_left]
  rw [decrypt, if_neg (not_not.mpr size), Base64.decode_encode, Option.bind_some, if_neg enough]
  simp only [head, length, key]
  rw [← blocks_eq]
  refine congrArg some (congrArg List.flatten (List.map_congr_left fun b member => ?_))
  have slice : ((List.range ((body.length + 15) / 16)).map fun b =>
      ((nonce ++ body).drop (8 + b * 16)).take 16).getD b [] =
        ((nonce ++ body).drop (8 + b * 16)).take 16 := by
    rw [List.getD_eq_getElem?_getD, List.getElem?_map,
      List.getElem?_range (List.mem_range.mp member)]
    rfl
  obtain ⟨entries, same⟩ := get_slice nonce body eight b
  rw [slice, entries]
  apply List.map_congr_left
  intro i inner
  have inside : i < 16 := Nat.lt_of_lt_of_le (List.mem_range.mp inner) (Nat.min_le_left _ _)
  rw [decrypt_counter_eq, block_entry _ _ long, same i inside]

/-- The time is eight bytes, half of a counter block. -/
theorem length_nonce_bytes (seconds microsecond : Nat) :
    (nonceBytes seconds microsecond).length = 8 := by
  simp [nonceBytes]

/-- What `decrypt` returns for a text `encrypt` made: it is the plaintext exactly when the two
keystreams agree wherever the text has a byte. -/
theorem returned_iff (plaintext password : List Byte) {nBits : Nat} (seconds microsecond : Nat)
    (size : KeySize nBits) (short : plaintext.length ≤ 2 ^ 44) :
    decrypt (encrypt plaintext password nBits seconds microsecond) password nBits =
        some plaintext ↔
      ∀ i, i < plaintext.length →
        stream (derivedKey password nBits) (nonceBytes seconds microsecond) decryptNumber i =
          stream (derivedKey password nBits) (nonceBytes seconds microsecond) id i := by
  rw [encrypt_exact plaintext password seconds microsecond size short,
    decrypt_exact _ _ password size (length_nonce_bytes seconds microsecond), Option.some_inj,
    Keystream.add_add_iff]

/-- What a reader of the standard finds in an encrypted text. It is base64 of the eight bytes
of the time and the bytes that follow: byte `i` is that of the plaintext with byte `i % 16`
of the cipher of the counter block of number `i / 16` added. -/
theorem encrypted_bytes (plaintext password : List Byte) {nBits : Nat} (seconds microsecond : Nat)
    (size : KeySize nBits) (short : plaintext.length ≤ 2 ^ 44) :
    ∃ bytes,
      encrypt plaintext password nBits seconds microsecond = Base64.encode bytes ∧
      bytes.length = 8 + plaintext.length ∧
      bytes.take 8 = nonceBytes seconds microsecond ∧
      ∀ i, i < plaintext.length → bytes.getD (8 + i) 0#8 =
        (blockBytes (cipherOf (keyWords (derivedKey password nBits))
          (blockOf (counterBytes (nonceBytes seconds microsecond) (i / 16))))).getD (i % 16) 0#8 ^^^
            plaintext.getD i 0#8 := by
  have eight := length_nonce_bytes seconds microsecond
  refine ⟨nonceBytes seconds microsecond ++
      Keystream.add (stream (derivedKey password nBits) (nonceBytes seconds microsecond) id)
        plaintext, encrypt_exact plaintext password seconds microsecond size short, ?_,
    List.take_left' eight, fun i inside => ?_⟩
  · rw [List.length_append, eight, Keystream.length_add]
  · rw [List.getD_append_right _ _ _ _ (by omega), eight, Nat.add_sub_cancel_left,
      Keystream.get_add _ inside]
    rfl

/-- An encrypted text of three bytes, under a key of 192 bits. -/
theorem encrypted_bytes_three :
    ∃ bytes,
      encrypt [1#8, 2#8, 3#8] [112#8, 119#8] 192 1234567890 234567 = Base64.encode bytes ∧
      bytes.length = 8 + 3 ∧
      bytes.take 8 = nonceBytes 1234567890 234567 ∧
      ∀ i, i < 3 → bytes.getD (8 + i) 0#8 =
        (blockBytes (cipherOf (keyWords (derivedKey [112#8, 119#8] 192))
          (blockOf (counterBytes (nonceBytes 1234567890 234567) (i / 16))))).getD (i % 16) 0#8 ^^^
            [1#8, 2#8, 3#8].getD i 0#8 :=
  encrypted_bytes [1#8, 2#8, 3#8] [112#8, 119#8] 1234567890 234567 (Or.inr (Or.inl rfl))
    (by decide)

/-- The two functions number the first `2^32` blocks alike, up to a text of `2^36` bytes. -/
theorem decrypt_number_eq {b : Nat} (bounded : b < 2 ^ 32) : decryptNumber b = b := by
  rw [decryptNumber]
  omega

/-- `decrypt` undoes `encrypt` for every text of up to `2^36` bytes, every password, every
key size and every time, because both use the same keystream. -/
theorem plaintext_returned (plaintext password : List Byte) {nBits : Nat} (seconds microsecond : Nat)
    (size : KeySize nBits) (short : plaintext.length ≤ 2 ^ 36) :
    decrypt (encrypt plaintext password nBits seconds microsecond) password nBits =
      some plaintext := by
  rw [returned_iff plaintext password seconds microsecond size (by omega)]
  intro i inside
  have bounded : i / 16 < 2 ^ 32 := by omega
  rw [stream, stream, decrypt_number_eq bounded]
  rfl

/-- A text of three bytes comes back, under a key of 256 bits. -/
theorem plaintext_returned_three :
    decrypt (encrypt [1#8, 2#8, 3#8] [112#8, 119#8] 256 1234567890 234567) [112#8, 119#8] 256 =
      some [1#8, 2#8, 3#8] :=
  plaintext_returned [1#8, 2#8, 3#8] [112#8, 119#8] 1234567890 234567 (Or.inr (Or.inr rfl))
    (by decide)

/-- Cipher maps different blocks to different blocks, since InvCipher undoes it. -/
theorem cipher_of_injective (key : List Word) : Function.Injective (cipherOf key) :=
  Function.LeftInverse.injective (inv_cipher_of_cipher_of key)

/-- Different blocks differ in one of their bytes, so different blocks of a keystream show
in the text. -/
theorem block_bytes_injective {left right : Block}
    (same : ∀ i, i < 16 → (blockBytes left).getD i 0#8 = (blockBytes right).getD i 0#8) :
    left = right := by
  rw [← of_state_to_state left, ← of_state_to_state right]
  congr 1
  funext r c
  rw [← get_bytes_of (toState left), ← get_bytes_of (toState right)]
  exact same _ (by omega)

/-- The bytes of a number in a counter block, counted from its end. -/
theorem get_counter_bytes (nonce : List Byte) (eight : nonce.length = 8) (number : Nat) {c : Nat}
    (inside : c < 8) :
    (counterBytes nonce number).getD (15 - c) 0#8 = BitVec.ofNat 8 (number >>> (c * 8)) := by
  have position : 15 - c - 8 = 7 - c := by omega
  rw [counterBytes, List.getD_append_right _ _ _ _ (by omega), eight, position]
  match c with
  | 0 | 1 | 2 | 3 | 4 | 5 | 6 | 7 => rfl

/-- Numbers of eight bytes with the same bytes are equal, as numbers of that size are their
bytes. -/
theorem number_ext {m n : Nat} (bounded : m < 2 ^ 64) (other : n < 2 ^ 64)
    (same : ∀ c, c < 8 → m >>> (c * 8) % 256 = n >>> (c * 8) % 256) : m = n := by
  have byte0 := same 0 (by decide)
  have byte1 := same 1 (by decide)
  have byte2 := same 2 (by decide)
  have byte3 := same 3 (by decide)
  have byte4 := same 4 (by decide)
  have byte5 := same 5 (by decide)
  have byte6 := same 6 (by decide)
  have byte7 := same 7 (by decide)
  simp only [Nat.shiftRight_eq_div_pow, Nat.reduceMul, Nat.reducePow] at *
  omega

/-- Counter blocks of different numbers are different, if the numbers fit into eight
bytes. -/
theorem counter_block_injective (nonce : List Byte) (eight : nonce.length = 8) {m n : Nat}
    (bounded : m < 2 ^ 64) (other : n < 2 ^ 64)
    (same : blockOf (counterBytes nonce m) = blockOf (counterBytes nonce n)) : m = n := by
  have states : stateOf (counterBytes nonce m) = stateOf (counterBytes nonce n) := by
    rw [← to_state_of_state (stateOf (counterBytes nonce m)),
      ← to_state_of_state (stateOf (counterBytes nonce n))]
    exact congrArg toState same
  refine number_ext bounded other fun c inside => ?_
  have entry := congrFun (congrFun states (Fin.ofNat 4 (15 - c))) (Fin.ofNat 4 ((15 - c) / 4))
  have position : (15 - c) % 4 + 4 * ((15 - c) / 4 % 4) = 15 - c := by omega
  rw [stateOf, stateOf, Fin.val_ofNat, Fin.val_ofNat, position,
    get_counter_bytes nonce eight _ inside, get_counter_bytes nonce eight _ inside] at entry
  exact congrArg BitVec.toNat entry

/-- Block `2^32` of a text is decrypted under number 0: `decrypt` does not return a text
that has this block whole. The two counter blocks differ, so their ciphers do, in one of the
sixteen bytes. -/
theorem plaintext_lost (plaintext password : List Byte) {nBits : Nat}
    (seconds microsecond : Nat) (size : KeySize nBits) (long : 2 ^ 36 + 16 ≤ plaintext.length)
    (short : plaintext.length ≤ 2 ^ 44) :
    decrypt (encrypt plaintext password nBits seconds microsecond) password nBits ≠
      some plaintext := by
  rw [ne_eq, returned_iff plaintext password seconds microsecond size short]
  intro agree
  have blocks : cipherOf (keyWords (derivedKey password nBits))
      (blockOf (counterBytes (nonceBytes seconds microsecond) 0)) =
        cipherOf (keyWords (derivedKey password nBits))
          (blockOf (counterBytes (nonceBytes seconds microsecond) (2 ^ 32))) := by
    apply block_bytes_injective
    intro i inside
    have quotient : (2 ^ 36 + i) / 16 = 2 ^ 32 := by omega
    have remainder : (2 ^ 36 + i) % 16 = i := by omega
    have number : decryptNumber (2 ^ 32) = 0 := rfl
    have byte := agree (2 ^ 36 + i) (by omega)
    rwa [stream, stream, quotient, remainder, number] at byte
  have numbers := counter_block_injective (nonceBytes seconds microsecond)
    (length_nonce_bytes seconds microsecond) (by decide) (by decide)
    (cipher_of_injective _ blocks)
  exact absurd numbers (by decide)

/-- A text of zeros with one whole block too many does not come back. -/
theorem plaintext_lost_zeros :
    decrypt (encrypt (List.replicate (2 ^ 36 + 16) 0#8) [112#8, 119#8] 128 1234567890 234567)
        [112#8, 119#8] 128 ≠ some (List.replicate (2 ^ 36 + 16) 0#8) :=
  plaintext_lost (List.replicate (2 ^ 36 + 16) 0#8) [112#8, 119#8] 1234567890 234567
    (Or.inl rfl) (by rw [List.length_replicate]) (by rw [List.length_replicate]; omega)

end AesCore.PythonAes
