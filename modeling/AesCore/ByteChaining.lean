import AesCore.ByteCipher
import AesCore.Chaining

/-!
# Cipher block chaining with the byte-oriented cipher

`aes_cbc_encrypt` and `aes_cbc_decrypt` process a number of blocks and leave in `iv` what
the next call needs. They stop with a failure at the first block that the cipher refuses.
An encryption has changed `iv` by then, a decryption has not.

The blocks of `in` are a list here, so that the number of them is not negative. In both
functions `in` may be the array `out`: a block is not read again after it was written.
`xor_block` adds `in` or `iv` itself here, so `unsigned long` has 32 bits again.
-/

namespace AesCore.ByteCipher

open ByteField (Byte)

/-- What a call leaves behind: the code that is returned, the blocks of `out` that it has
written, and `iv`. -/
structure CbcResult where
  code : Byte
  out : List ByteBlock
  iv : ByteBlock
  deriving DecidableEq

/-- Function `aes_cbc_encrypt`. The block is added to `iv` before the cipher is asked, so a
refusal leaves the sum behind. The failure code is one, whatever the cipher returned. -/
def aesCbcEncrypt (ctx : Context) : List ByteBlock → ByteBlock → CbcResult
  | [], iv => ⟨0#8, [], iv⟩
  | input :: rest, iv =>
    let iv := xorBlock iv input
    match aesEncrypt iv ctx with
    | .error _ => ⟨1#8, [], iv⟩
    | .ok iv =>
      let next := aesCbcEncrypt ctx rest iv
      { next with out := iv :: next.out }

/-- Function `aes_cbc_decrypt`. A copy of the block becomes the next `iv` after the result
has taken up the old one, so a refusal leaves `iv` as it was. -/
def aesCbcDecrypt (ctx : Context) : List ByteBlock → ByteBlock → CbcResult
  | [], iv => ⟨0#8, [], iv⟩
  | input :: rest, iv =>
    match aesDecrypt input ctx with
    | .error _ => ⟨1#8, [], iv⟩
    | .ok output =>
      let next := aesCbcDecrypt ctx rest input
      { next with out := xorBlock output iv :: next.out }

/-- The block that a context enciphers a block to. Where the cipher refuses, the block is
kept, but then nothing is said about it. -/
def Context.encipher (ctx : Context) (block : ByteBlock) : ByteBlock :=
  match aesEncrypt block ctx with
  | .error _ => block
  | .ok result => result

/-- The block that a context deciphers a block to. Where the cipher refuses, the block is
kept, but then nothing is said about it. -/
def Context.decipher (ctx : Context) (block : ByteBlock) : ByteBlock :=
  match aesDecrypt block ctx with
  | .error _ => block
  | .ok result => result

/-- Adding a block twice changes nothing; this is how a chained block is unmixed. -/
theorem xor_block_twice (a b : ByteBlock) : xorBlock a (xorBlock a b) = b := by
  apply Vector.ext
  intro i inside
  simp only [xorBlock, Vector.getElem_zipWith, ← BitVec.xor_assoc, BitVec.xor_self,
    BitVec.zero_xor]

/-- Blocks add in any order. The two functions have `iv` on different sides. -/
theorem xor_block_comm (a b : ByteBlock) : xorBlock a b = xorBlock b a := by
  apply Vector.ext
  intro i inside
  simp only [xorBlock, Vector.getElem_zipWith, BitVec.xor_comm]

section Keyed

variable {ctx : Context} (keyed : ctx.rnd ≠ 0#8)
include keyed

/-- A context with rounds enciphers every block, so the calls may be replaced by a total
function. -/
theorem encrypt_eq (block : ByteBlock) : aesEncrypt block ctx = .ok (ctx.encipher block) := by
  obtain ⟨result, encrypted, _⟩ := encrypt_keyed keyed block
  rw [Context.encipher, encrypted]

/-- And it deciphers every block. -/
theorem decrypt_eq (block : ByteBlock) : aesDecrypt block ctx = .ok (ctx.decipher block) := by
  obtain ⟨result, decrypted, _⟩ := decrypt_keyed keyed block
  rw [Context.decipher, decrypted]

/-- A block with the initial value is recovered: deciphered it is the sum with `iv`, and
`iv` cancels. -/
theorem chained_block_undone (initial block : ByteBlock) :
    xorBlock (ctx.decipher (ctx.encipher (xorBlock initial block))) initial = block := by
  have undone := decrypt_of_encrypt keyed (encrypt_eq keyed (xorBlock initial block))
  rw [decrypt_eq keyed] at undone
  rw [Except.ok.inj undone, xor_block_comm, xor_block_twice]

/-- A result with the initial value is recovered: the sum with `iv` is what was deciphered,
and enciphering gives it back. -/
theorem chained_block_redone (initial result : ByteBlock) :
    ctx.encipher (xorBlock initial (xorBlock (ctx.decipher result) initial)) = result := by
  have redone := encrypt_of_decrypt keyed (decrypt_eq keyed result)
  rw [encrypt_eq keyed] at redone
  rw [xor_block_comm (ctx.decipher result), xor_block_twice, Except.ok.inj redone]

/-- `aes_cbc_encrypt` chains encryptions, in the sense of the library of chained blocks, and
ends with success. Proof: induction over the blocks. -/
theorem cbc_encrypt_eq (blocks : List ByteBlock) (iv : ByteBlock) :
    aesCbcEncrypt ctx blocks iv = ⟨0#8, (Chaining.encrypt xorBlock ctx.encipher blocks iv).1,
      (Chaining.encrypt xorBlock ctx.encipher blocks iv).2⟩ := by
  induction blocks generalizing iv with
  | nil => rfl
  | cons block rest inductionHypothesis =>
    simp only [aesCbcEncrypt, encrypt_eq keyed, inductionHypothesis, Chaining.encrypt]

/-- `aes_cbc_decrypt` chains decryptions, in the sense of the library of chained blocks, and
ends with success. Proof: induction over the blocks. -/
theorem cbc_decrypt_eq (blocks : List ByteBlock) (iv : ByteBlock) :
    aesCbcDecrypt ctx blocks iv = ⟨0#8, (Chaining.decrypt xorBlock ctx.decipher blocks iv).1,
      (Chaining.decrypt xorBlock ctx.decipher blocks iv).2⟩ := by
  induction blocks generalizing iv with
  | nil => rfl
  | cons block rest inductionHypothesis =>
    simp only [aesCbcDecrypt, decrypt_eq keyed, inductionHypothesis, Chaining.decrypt]

end Keyed

/-- With rounds that find their keys inside the schedule, a text may be processed in parts,
and each function undoes the other and leaves the same `iv`. Without rounds the first block
is refused: nothing is written, and only an encryption has changed `iv`. As everywhere in
this library, a block is sixteen bytes for `xor_block` where `unsigned long` has 32 bits. -/
theorem cbc_exact (ctx : Context) (first second : List ByteBlock) (iv : ByteBlock) :
    (0 < ctx.rnd.toNat ∧ ctx.rnd.toNat ≤ 14 →
      aesCbcEncrypt ctx (first ++ second) iv =
          ⟨0#8, (aesCbcEncrypt ctx first iv).out ++
            (aesCbcEncrypt ctx second (aesCbcEncrypt ctx first iv).iv).out,
          (aesCbcEncrypt ctx second (aesCbcEncrypt ctx first iv).iv).iv⟩ ∧
        aesCbcDecrypt ctx (first ++ second) iv =
          ⟨0#8, (aesCbcDecrypt ctx first iv).out ++
            (aesCbcDecrypt ctx second (aesCbcDecrypt ctx first iv).iv).out,
          (aesCbcDecrypt ctx second (aesCbcDecrypt ctx first iv).iv).iv⟩ ∧
        aesCbcDecrypt ctx (aesCbcEncrypt ctx first iv).out iv =
          ⟨0#8, first, (aesCbcEncrypt ctx first iv).iv⟩ ∧
        aesCbcEncrypt ctx (aesCbcDecrypt ctx first iv).out iv =
          ⟨0#8, first, (aesCbcDecrypt ctx first iv).iv⟩) ∧
      (ctx.rnd = 0#8 → ∀ block rest, first = block :: rest →
        aesCbcEncrypt ctx first iv = ⟨1#8, [], xorBlock iv block⟩ ∧
          aesCbcDecrypt ctx first iv = ⟨1#8, [], iv⟩) := by
  constructor
  · rintro ⟨positive, _⟩
    have keyed : ctx.rnd ≠ 0#8 := by
      intro zero
      rw [zero] at positive
      exact absurd positive (by decide)
    simp only [cbc_encrypt_eq keyed, cbc_decrypt_eq keyed, Chaining.encrypt_append,
      Chaining.decrypt_append, Chaining.decrypt_encrypt _ _ _ (chained_block_undone keyed),
      Chaining.encrypt_decrypt _ _ _ (chained_block_redone keyed), and_self]
  · rintro unkeyed block rest rfl
    simp only [aesCbcEncrypt, aesCbcDecrypt, (refused unkeyed _).1, (refused unkeyed _).2,
      and_self]

/-- Two blocks and one block under a key that has been set, and the same without a key. -/
theorem cbc_exact_example :
    let ctx := (aesSetKey (Vector.replicate 24 0#8) 24#8 ⟨Vector.replicate 240 0#8, 0#8⟩).2
    let blank : Context := ⟨Vector.replicate 240 0#8, 0#8⟩
    let a : ByteBlock := Vector.replicate 16 1#8
    let b : ByteBlock := Vector.replicate 16 2#8
    aesCbcDecrypt ctx (aesCbcEncrypt ctx [a, b] a).out a =
        ⟨0#8, [a, b], (aesCbcEncrypt ctx [a, b] a).iv⟩ ∧
      aesCbcEncrypt blank [b, b] a = ⟨1#8, [], xorBlock a b⟩ :=
  ⟨((cbc_exact _ _ [] _).1 (by decide +kernel)).2.2.1, ((cbc_exact _ _ [] _).2 rfl _ _ rfl).1⟩

end AesCore.ByteCipher
