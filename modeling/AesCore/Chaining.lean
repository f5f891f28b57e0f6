/-!
# Cipher block chaining

A text of blocks is enciphered one block after another. Each block is combined with the
result of the one before it, the first with an initial value, and enciphered. The last
result is returned as the initial value of a text that continues this one, so that a
long text can be processed in parts.

The type of the blocks, the combination and the cipher are arbitrary. All that the round
trip needs is that deciphering and combining again gives a block back.
-/

namespace Chaining

universe u
variable {β : Type u} (combine : β → β → β) (encipher decipher : β → β)

/-- The results for the blocks of a text, and the initial value for what follows. Each block
is combined with the result before it, the first one with the initial value. -/
def encrypt : List β → β → List β × β
  | [], initial => ([], initial)
  | block :: rest, initial =>
    let result := encipher (combine initial block)
    let next := encrypt rest result
    (result :: next.1, next.2)

/-- The blocks of a text of results, and the initial value for what follows. Each result is
deciphered and combined with the result before it, which is still at hand. -/
def decrypt : List β → β → List β × β
  | [], initial => ([], initial)
  | result :: rest, initial =>
    let next := decrypt rest result
    (combine (decipher result) initial :: next.1, next.2)

/-- Decryption gives the text back and continues as encryption does, if deciphering and
combining undo combining and enciphering. The induction is over the blocks, for every
initial value. -/
theorem decrypt_encrypt
    (undone : ∀ initial block,
      combine (decipher (encipher (combine initial block))) initial = block)
    (blocks : List β) (initial : β) :
    decrypt combine decipher (encrypt combine encipher blocks initial).1 initial =
      (blocks, (encrypt combine encipher blocks initial).2) := by
  induction blocks generalizing initial with
  | nil => rfl
  | cons block rest inductionHypothesis =>
    simp only [encrypt, decrypt, inductionHypothesis, undone]

/-- Encryption gives the results back and continues as decryption does. The condition is the
other composition of the same steps, and neither condition follows from the other in
general. -/
theorem encrypt_decrypt
    (redone : ∀ initial result,
      encipher (combine initial (combine (decipher result) initial)) = result)
    (results : List β) (initial : β) :
    encrypt combine encipher (decrypt combine decipher results initial).1 initial =
      (results, (decrypt combine decipher results initial).2) := by
  induction results generalizing initial with
  | nil => rfl
  | cons result rest inductionHypothesis =>
    simp only [decrypt, encrypt, redone, inductionHypothesis]

/-- A text may be encrypted in parts: the initial value that the first part leaves is all
that the second needs to know of it. -/
theorem encrypt_append (first second : List β) (initial : β) :
    encrypt combine encipher (first ++ second) initial =
      ((encrypt combine encipher first initial).1 ++
        (encrypt combine encipher second (encrypt combine encipher first initial).2).1,
      (encrypt combine encipher second (encrypt combine encipher first initial).2).2) := by
  induction first generalizing initial with
  | nil => rfl
  | cons block rest inductionHypothesis =>
    simp only [List.cons_append, encrypt, inductionHypothesis]

/-- A text may be decrypted in parts. The initial value between them is the last result of
the first part, in decryption as in encryption. -/
theorem decrypt_append (first second : List β) (initial : β) :
    decrypt combine decipher (first ++ second) initial =
      ((decrypt combine decipher first initial).1 ++
        (decrypt combine decipher second (decrypt combine decipher first initial).2).1,
      (decrypt combine decipher second (decrypt combine decipher first initial).2).2) := by
  induction first generalizing initial with
  | nil => rfl
  | cons block rest inductionHypothesis =>
    simp only [List.cons_append, decrypt, inductionHypothesis]

end Chaining
