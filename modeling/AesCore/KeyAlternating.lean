/-!
# Key-alternating block ciphers

A key-alternating cipher interleaves the addition of round keys with a keyless
substitution layer and a mixing layer; the last round leaves the mixing out. The
laws of the layers are fields, so every value of `Layers` describes a cipher
that can be undone, and the number of rounds, the key type and the block type
are arbitrary. Nothing relates the round keys to one another.

Decryption consumes its keys in the order in which a machine reads them: `slots`
number the reads, not the rounds. For the inverse of `encrypt` the slots are the
round keys backwards, but the laws below also speak of other slots, such as those
of a machine whose key store changes while it reads.
-/

namespace KeyAlternating

universe u v
variable {κ : Type u} {β : Type v}

/-- The layers of a cipher with round keys in `κ` and blocks in `β`. The fields that are
equations say that adding a key twice does nothing and that each other layer has an
inverse. -/
structure Layers (κ : Type u) (β : Type v) where
  /-- Combine a round key with a block. -/
  add : κ → β → β
  /-- The substitution layer. -/
  sub : β → β
  /-- Undo the substitution layer. -/
  unsub : β → β
  /-- The mixing layer. -/
  mix : β → β
  /-- Undo the mixing layer. -/
  unmix : β → β
  add_add : ∀ key block, add key (add key block) = block
  unsub_sub : ∀ block, unsub (sub block) = block
  sub_unsub : ∀ block, sub (unsub block) = block
  unmix_mix : ∀ block, unmix (mix block) = block
  mix_unmix : ∀ block, mix (unmix block) = block

namespace Layers

variable (layers : Layers κ β)

/-- The first `j` full rounds from `start`, with the keys numbered from one. Key zero is not
used here: the addition before the first round belongs to `encrypt`. -/
def forward (keys : Nat → κ) (start : β) : Nat → β
  | 0 => start
  | j + 1 => layers.add (keys (j + 1)) (layers.mix (layers.sub (forward keys start j)))

/-- Key zero, `inner` full rounds, and a last round without mixing. Leaving the mixing out
of the last round is what gives the inverse cipher the same shape. -/
def encrypt (inner : Nat) (keys : Nat → κ) (block : β) : β :=
  layers.add (keys (inner + 1))
    (layers.sub (layers.forward keys (layers.add (keys 0) block) inner))

/-- The first `j` full inverse rounds from `start`, with the slots numbered from
one. An inverse round adds its key between the two inverse layers. -/
def backward (slots : Nat → κ) (start : β) : Nat → β
  | 0 => start
  | j + 1 => layers.unmix (layers.add (slots (j + 1)) (layers.unsub (backward slots start j)))

/-- Slot zero, `inner` full inverse rounds, and a last round without unmixing. It is stated
for arbitrary slots, so that it also describes a machine whose key store changes
meanwhile. -/
def decrypt (inner : Nat) (slots : Nat → κ) (block : β) : β :=
  layers.add (slots (inner + 1))
    (layers.unsub (layers.backward slots (layers.add (slots 0) block) inner))

/-- Adding a round key loses nothing, since adding it once more gives the block back. Where
two sums with one key agree, the blocks do. -/
theorem add_injective (key : κ) {left right : β}
    (same : layers.add key left = layers.add key right) : left = right := by
  rw [← layers.add_add key left, same, layers.add_add]

/-- The inverse substitution loses nothing, since the substitution undoes it. An S-box that
were no permutation could not be a field of `Layers`. -/
theorem unsub_injective {left right : β} (same : layers.unsub left = layers.unsub right) :
    left = right := by
  rw [← layers.sub_unsub left, same, layers.sub_unsub]

/-- The inverse mixing loses nothing, since the mixing undoes it. With the two lemmas
before, every step of an inverse round is injective. -/
theorem unmix_injective {left right : β} (same : layers.unmix left = layers.unmix right) :
    left = right := by
  rw [← layers.mix_unmix left, same, layers.mix_unmix]

/-- Rounds depend only on the keys they use, which are those from one to `j`. Whatever a key
schedule holds beyond them, or at zero, does not matter. -/
theorem forward_congr {keys others : Nat → κ} (start : β) {j : Nat}
    (agree : ∀ i, 1 ≤ i → i ≤ j → keys i = others i) :
    layers.forward keys start j = layers.forward others start j := by
  induction j with
  | zero => rfl
  | succ j inductionHypothesis =>
    rw [forward, forward, agree (j + 1) (by omega) (by omega),
      inductionHypothesis fun i one bounded => agree i one (by omega)]

/-- Inverse rounds depend only on the slots they read, which are those from one to `j`. A
key store may therefore change in a slot that has been read already. -/
theorem backward_congr {slots others : Nat → κ} (start : β) {j : Nat}
    (agree : ∀ i, 1 ≤ i → i ≤ j → slots i = others i) :
    layers.backward slots start j = layers.backward others start j := by
  induction j with
  | zero => rfl
  | succ j inductionHypothesis =>
    rw [backward, backward, agree (j + 1) (by omega) (by omega),
      inductionHypothesis fun i one bounded => agree i one (by omega)]

/-- A whole encryption depends only on keys zero to `inner + 1`. So it is enough to know
that a schedule is right in these places. -/
theorem encrypt_congr {keys others : Nat → κ} (block : β) {inner : Nat}
    (agree : ∀ i, i ≤ inner + 1 → keys i = others i) :
    layers.encrypt inner keys block = layers.encrypt inner others block := by
  rw [encrypt, encrypt, agree 0 (by omega), agree (inner + 1) (by omega),
    layers.forward_congr _ fun i _ bounded => agree i (by omega)]

/-- A whole decryption depends only on slots zero to `inner + 1`. It is used with the words
that a machine has read, clock by clock, in place of a finished schedule. -/
theorem decrypt_congr {slots others : Nat → κ} (block : β) {inner : Nat}
    (agree : ∀ i, i ≤ inner + 1 → slots i = others i) :
    layers.decrypt inner slots block = layers.decrypt inner others block := by
  rw [decrypt, decrypt, agree 0 (by omega), agree (inner + 1) (by omega),
    layers.backward_congr _ fun i _ bounded => agree i (by omega)]

/-- Inverse rounds are injective in the block they start from, whatever the slots are. The
induction peels off the last round, each of whose three steps loses nothing. -/
theorem backward_injective (slots : Nat → κ) {left right : β} {j : Nat}
    (same : layers.backward slots left j = layers.backward slots right j) : left = right := by
  induction j with
  | zero => exact same
  | succ j inductionHypothesis =>
    exact inductionHypothesis (layers.unsub_injective
      (layers.add_injective (slots (j + 1)) (layers.unmix_injective same)))

/-- The first of `j + 1` inverse rounds can be split off the front; the remaining
ones read the slots that follow it. -/
theorem backward_shift (slots : Nat → κ) (start : β) (j : Nat) :
    layers.backward slots start (j + 1) =
      layers.backward (fun i => slots (i + 1)) (layers.backward slots start 1) j := by
  induction j with
  | zero => rfl
  | succ j inductionHypothesis =>
    rw [backward, inductionHypothesis]
    rfl

/-- Decrypting with the round keys backwards retraces the encryption: after `j`
inverse rounds the block is the one that entered the mixing layer of the round
`inner - j`. -/
theorem backward_encrypt (inner : Nat) (keys : Nat → κ) (block : β) {j : Nat}
    (bounded : j ≤ inner) :
    layers.backward (fun i => keys (inner + 1 - i))
        (layers.add (keys (inner + 1)) (layers.encrypt inner keys block)) j =
      layers.sub (layers.forward keys (layers.add (keys 0) block) (inner - j)) := by
  induction j with
  | zero => rw [backward, encrypt, layers.add_add, Nat.sub_zero]
  | succ j inductionHypothesis =>
    obtain ⟨rounds, same⟩ : ∃ rounds, inner - j = rounds + 1 := ⟨inner - j - 1, by omega⟩
    have key : inner + 1 - (j + 1) = rounds + 1 := by omega
    have fewer : inner - (j + 1) = rounds := by omega
    rw [backward, inductionHypothesis (by omega), layers.unsub_sub, same, key, fewer, forward,
      layers.add_add, layers.unmix_mix]

/-- Decryption inverts encryption, for any round keys. The last inverse round without
unmixing meets the block before the first round, to which key zero was added. -/
theorem decrypt_encrypt (inner : Nat) (keys : Nat → κ) (block : β) :
    layers.decrypt inner (fun i => keys (inner + 1 - i)) (layers.encrypt inner keys block) =
      block := by
  have retraced := layers.backward_encrypt inner keys block (Nat.le_refl inner)
  simp only [decrypt, Nat.sub_zero, Nat.sub_self] at retraced ⊢
  rw [retraced, forward, layers.unsub_sub, layers.add_add]

/-- Encrypting retraces the decryption: after `j` rounds the block is the one that
left the inverse substitution of inverse round `inner + 1 - j`. -/
theorem forward_decrypt (inner : Nat) (keys : Nat → κ) (block : β) {j : Nat}
    (bounded : j ≤ inner) :
    layers.forward keys (layers.add (keys 0)
        (layers.decrypt inner (fun i => keys (inner + 1 - i)) block)) j =
      layers.unsub (layers.backward (fun i => keys (inner + 1 - i))
        (layers.add (keys (inner + 1)) block) (inner - j)) := by
  induction j with
  | zero => rw [forward, decrypt, Nat.sub_self, layers.add_add, Nat.sub_zero, Nat.sub_zero]
  | succ j inductionHypothesis =>
    obtain ⟨rounds, same⟩ : ∃ rounds, inner - j = rounds + 1 := ⟨inner - j - 1, by omega⟩
    have key : inner + 1 - (rounds + 1) = j + 1 := by omega
    have fewer : inner - (j + 1) = rounds := by omega
    rw [forward, inductionHypothesis (by omega), layers.sub_unsub, same, backward,
      layers.mix_unmix, key, layers.add_add, fewer]

/-- Encryption inverts decryption, for any round keys. So both functions are bijections, and
each ciphertext has exactly one plaintext under a given schedule. -/
theorem encrypt_decrypt (inner : Nat) (keys : Nat → κ) (block : β) :
    layers.encrypt inner keys (layers.decrypt inner (fun i => keys (inner + 1 - i)) block) =
      block := by
  rw [encrypt, layers.forward_decrypt inner keys block (Nat.le_refl inner), Nat.sub_self, backward,
    layers.sub_unsub, layers.add_add]

/-- Decryption inverts encryption as soon as its slots are the keys backwards, however they
came to hold them. -/
theorem decrypt_encrypt_of {slots keys : Nat → κ} {inner : Nat}
    (agree : ∀ i, i ≤ inner + 1 → slots i = keys (inner + 1 - i)) (block : β) :
    layers.decrypt inner slots (layers.encrypt inner keys block) = block := by
  rw [layers.decrypt_congr _ agree, layers.decrypt_encrypt]

/-- And encryption inverts such a decryption. Only the slots that are read have to be the
keys backwards, since the others do not enter. -/
theorem encrypt_decrypt_of {slots keys : Nat → κ} {inner : Nat}
    (agree : ∀ i, i ≤ inner + 1 → slots i = keys (inner + 1 - i)) (block : β) :
    layers.encrypt inner keys (layers.decrypt inner slots block) = block := by
  rw [layers.decrypt_congr _ agree, layers.encrypt_decrypt]

/-- The cipher with every layer replaced by its inverse. The laws of `Layers` come in pairs,
so they hold for it too, with the partners exchanged. -/
def inverse : Layers κ β where
  add := layers.add
  sub := layers.unsub
  unsub := layers.sub
  mix := layers.unmix
  unmix := layers.mix
  add_add := layers.add_add
  unsub_sub := layers.sub_unsub
  sub_unsub := layers.unsub_sub
  unmix_mix := layers.mix_unmix
  mix_unmix := layers.unmix_mix

/-- If a key can be added after the inverse mixing, as another key, then inverse rounds are
rounds of the inverse cipher with these other keys. -/
theorem backward_eq_forward {push : κ → κ}
    (moved : ∀ key block, layers.unmix (layers.add key block) =
      layers.add (push key) (layers.unmix block))
    (slots : Nat → κ) (start : β) (j : Nat) :
    layers.backward slots start j =
      layers.inverse.forward (fun slot => push (slots slot)) start j := by
  induction j with
  | zero => rfl
  | succ j inductionHypothesis =>
    rw [backward, moved, inductionHypothesis]
    rfl

/-- The equivalent inverse cipher: decryption has the shape of an encryption when all keys
but the outer two are replaced in advance by those that can be added after the inverse
mixing. -/
theorem decrypt_eq_encrypt {push : κ → κ}
    (moved : ∀ key block, layers.unmix (layers.add key block) =
      layers.add (push key) (layers.unmix block))
    {slots keys : Nat → κ} {inner : Nat} (first : keys 0 = slots 0)
    (between : ∀ slot, 1 ≤ slot → slot ≤ inner → keys slot = push (slots slot))
    (last : keys (inner + 1) = slots (inner + 1)) (block : β) :
    layers.decrypt inner slots block = layers.inverse.encrypt inner keys block := by
  rw [decrypt, layers.backward_eq_forward moved, encrypt, first, last,
    layers.inverse.forward_congr _ between]
  rfl

/-- Two decryptions that differ only in slot zero and in the input agree exactly when their
first additions do. All that follows is the same on both sides and injective. -/
theorem decrypt_eq_iff {slots others : Nat → κ} {left right : β} {inner : Nat}
    (agree : ∀ i, 1 ≤ i → i ≤ inner + 1 → slots i = others i) :
    layers.decrypt inner slots left = layers.decrypt inner others right ↔
      layers.add (slots 0) left = layers.add (others 0) right := by
  have rounds (start : β) : layers.backward slots start inner =
      layers.backward others start inner :=
    layers.backward_congr start fun i one bounded => agree i one (by omega)
  rw [decrypt, decrypt, agree (inner + 1) (by omega) (by omega), rounds]
  constructor
  · intro same
    exact layers.backward_injective others
      (layers.unsub_injective (layers.add_injective (others (inner + 1)) same))
  · intro same
    rw [same]

/-- A decryption with one inverse round too many at its front agrees with the
intended one exactly when that round leads to the block the intended one starts
from. -/
theorem decrypt_late_iff {late slots : Nat → κ} {block : β} {inner : Nat}
    (agree : ∀ i, i ≤ inner + 1 → late (i + 1) = slots i) :
    layers.decrypt (inner + 1) late block = layers.decrypt inner slots block ↔
      layers.backward late (layers.add (late 0) block) 1 = layers.add (slots 0) block := by
  have rounds : layers.backward late (layers.add (late 0) block) (inner + 1) =
      layers.backward slots (layers.backward late (layers.add (late 0) block) 1) inner := by
    rw [layers.backward_shift late (layers.add (late 0) block) inner]
    exact layers.backward_congr _ fun i _ bounded => agree i (by omega)
  rw [decrypt, decrypt, agree (inner + 1) (by omega), rounds]
  constructor
  · intro same
    exact layers.backward_injective slots
      (layers.unsub_injective (layers.add_injective (slots (inner + 1)) same))
  · intro same
    rw [same]

end Layers

end KeyAlternating
