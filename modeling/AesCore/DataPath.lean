import AesCore.CipherTop
import AesCore.InvCipherTop

/-!
# The two data paths

`encipher` composes the wires of the encryption core and `decipher` those of the
decryption core. They are inverse to each other for any words in the place of the round
keys, as long as one uses them in the opposite order of the other: a key schedule is not
needed, and the number of rounds does not matter.

The registers of the cores carry these compositions out, so a decryption returns the text
of an encryption as soon as it reads the words that the encryption used.
-/

namespace AesCore.DataPath

open Fips197
open StateRegisters
open CipherTop (encipher)
open InvCipherTop (decipher)

section Wires
variable (inner : Nat) (keys : Nat → Words) (text : Block)

/-- The inverse rounds undo the rounds, for any words and any number of rounds. The laws of
the layers are all that is used. -/
theorem decipher_encipher :
    decipher inner (fun k => keys (inner + 1 - k)) (encipher inner keys text) = text := by
  rw [InvCipherTop.decipher_eq, CipherTop.encipher_eq, to_state_of_state]
  have undone := layers.decrypt_encrypt inner (fun k => (keys k).word) (toState text)
  exact (congrArg ofState undone).trans (of_state_to_state text)

/-- The rounds undo the inverse rounds, for any words and any number of rounds. -/
theorem encipher_decipher :
    encipher inner keys (decipher inner (fun k => keys (inner + 1 - k)) text) = text := by
  rw [InvCipherTop.decipher_eq, CipherTop.encipher_eq, to_state_of_state]
  have redone := layers.encrypt_decrypt inner (fun k => (keys k).word) (toState text)
  exact (congrArg ofState redone).trans (of_state_to_state text)

/-- Only the words up to `inner + 1` reach the text of the inverse rounds, so it is enough
that these are the keys backwards. -/
theorem decipher_congr {slots others : Nat → Words}
    (agree : ∀ k, k ≤ inner + 1 → slots k = others k) :
    decipher inner slots text = decipher inner others text := by
  rw [InvCipherTop.decipher_eq, InvCipherTop.decipher_eq]
  refine congrArg ofState (layers.decrypt_congr _ fun k inside => ?_)
  rw [agree k inside]

end Wires

/-- The data paths of the two cores are two-sided inverses for any eleven round keys: nine
full rounds and a last one with `keys 0` to `keys 10`, and the inverse rounds with
`keys 10` to `keys 0`. -/
theorem data_paths_inverse (keys : Nat → Words) (text : Block) :
    decipher 9 (fun k => keys (10 - k)) (encipher 9 keys text) = text ∧
      encipher 9 keys (decipher 9 (fun k => keys (10 - k)) text) = text :=
  ⟨decipher_encipher 9 keys text, encipher_decipher 9 keys text⟩

/-- The registers of the two cores in their runs. A decryption that is handed the text of
an encryption, and whose `w` registers show the words of that encryption in the opposite
order, shows the text that was encrypted. -/
theorem text_recovered (start : CipherTop.Registers) (inputs : Nat → CipherTop.Inputs)
    (run : InvCipherTop.Run) {inner m u : Nat}
    (encrypted : (inputs m).ld = true)
    (encryptedAlone : ∀ i, m < i → i ≤ m + inner → (inputs i).ld = false)
    (decrypted : (run.inputs u).ld = true)
    (decryptedAlone : ∀ i, u < i → i ≤ u + inner → (run.inputs i).ld = false)
    (handed : (run.inputs u).textIn = (CipherTop.run start inputs (m + 3 + inner)).textOut)
    (reversed : ∀ k, k ≤ inner + 1 →
      run.slots u k = CipherTop.keys start inputs m (inner + 1 - k)) :
    (run.state (u + 3 + inner)).textOut = (inputs m).textIn := by
  have shown := InvCipherTop.text_out_after_load run inner decrypted decryptedAlone
  have given := CipherTop.text_out_of_keys start inputs inner encrypted encryptedAlone
  rw [← InvCipherTop.decipher_eq, handed, given, decipher_congr inner _ reversed] at shown
  rw [shown]
  exact decipher_encipher inner (CipherTop.keys start inputs m) (inputs m).textIn

end AesCore.DataPath
