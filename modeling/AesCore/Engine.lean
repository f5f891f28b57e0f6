import AesCore.AesTop

/-!
# The transaction-level engine

What `aes_top` is for, without clocks: an engine that encrypts, decrypts and remembers
the last key it was given for decryption. A command is one clock of the interface. The
decryption key survives any number of encryptions, whose keys travel over the same port.

The interface presents a command by `mode`, `ld` and `kld`. Each of its two cores is
loaded by its own commands and by nothing else, so the discipline under which the
interface refines the engine can be stated for the commands alone.
-/

namespace AesCore.Engine

open Fips197
open AesTop (ldE ldD kldD)

/-- What can be asked of the engine. A command takes one clock of the interface, whatever
the hardware does about it in the clocks that follow. -/
inductive Command where
  /-- Encrypt a block under a key. -/
  | enc (key text : Block)
  /-- Remember a key for decryption. -/
  | loadKey (key : Block)
  /-- Decrypt a block under the remembered key. -/
  | dec (text : Block)

/-- The remembered key after a command. Encryptions bring their own key and leave it alone,
although both keys travel over the same port. -/
def keyAfter (key : Option Block) : Command → Option Block
  | .enc _ _ => key
  | .loadKey loaded => some loaded
  | .dec _ => key

/-- The result of a command. A key load has none, nor has a decryption without a key. -/
def result (key : Option Block) : Command → Option Block
  | .enc own text => some (cipher own text)
  | .loadKey _ => none
  | .dec text => key.map fun remembered => invCipher remembered text

/-- The key remembered before clock `n`, where `commands` says which command each clock
issues, if any. -/
def key (commands : Nat → Option Command) : Nat → Option Block
  | 0 => none
  | n + 1 =>
    match commands n with
    | none => key commands n
    | some command => keyAfter (key commands n) command

/-- The result of the command issued at clock `n`, with the key that is remembered by then.
It is what the interface has to show, twelve clocks later. -/
def response (commands : Nat → Option Command) (n : Nat) : Option Block :=
  (commands n).bind (result (key commands n))

/-- How the interface presents a command, or the absence of one. Signals that are not
mentioned are arbitrary. -/
def Issues (i : AesTop.Inputs) : Option Command → Prop
  | none => i.ld = false ∧ i.kld = false
  | some (.enc own text) => i.mode = false ∧ i.ld = true ∧ i.key = own ∧ i.textIn = text
  | some (.loadKey loaded) => i.mode = true ∧ i.kld = true ∧ i.ld = false ∧ i.key = loaded
  | some (.dec text) => i.mode = true ∧ i.ld = true ∧ i.kld = false ∧ i.textIn = text

/-- Each core is loaded by its own commands and by nothing else: `mode` leads the signal
`ld` to one of the two cores, and `kld` reaches the decryption core only. -/
theorem loads_of_issues {i : AesTop.Inputs} {command : Option Command} (issued : Issues i command) :
    (ldE i = true ↔ ∃ own text, command = some (.enc own text)) ∧
      (ldD i = true ↔ ∃ text, command = some (.dec text)) ∧
      (kldD i = true ↔ ∃ loaded, command = some (.loadKey loaded)) := by
  rw [AesTop.ld_e_iff, AesTop.ld_d_iff, AesTop.kld_d_iff]
  match command, issued with
  | none, ⟨ld, kld⟩ => simp [ld, kld]
  | some (.enc own text), ⟨mode, ld, _, _⟩ => simp [mode, ld]
  | some (.loadKey loaded), ⟨mode, kld, ld, _⟩ => simp [mode, kld, ld]
  | some (.dec text), ⟨mode, ld, kld, _⟩ => simp [mode, ld, kld]

/-- A key is remembered until the next one is loaded. The induction is over the clocks since
the load, and no command between them touches the key. -/
theorem key_since_load {commands : Nat → Option Command} {t n : Nat} {loaded : Block}
    (issued : commands t = some (.loadKey loaded)) (later : t < n)
    (last : ∀ i, t < i → i < n → ¬ ∃ other, commands i = some (.loadKey other)) :
    key commands n = some loaded := by
  induction n, later using Nat.le_induction with
  | base => simp only [key, issued, keyAfter]
  | succ n later inductionHypothesis =>
    have remembered := inductionHypothesis fun i after before => last i after (by omega)
    have kept := last n later (Nat.lt_succ_self n)
    rw [key]
    cases now : commands n with
    | none => exact remembered
    | some command =>
      cases command with
      | enc own text => exact remembered
      | loadKey other => exact absurd ⟨other, now⟩ kept
      | dec text => exact remembered

/-- A command with a result is an encryption or a decryption. The converse needs a key for
the decryption, and so a discipline. -/
theorem issued_of_response {commands : Nat → Option Command} {u : Nat}
    (responded : (response commands u).isSome = true) :
    (∃ own text, commands u = some (.enc own text)) ∨ ∃ text, commands u = some (.dec text) := by
  rw [response] at responded
  match issued : commands u with
  | none => simp [issued] at responded
  | some (.enc own text) => exact Or.inl ⟨own, text, rfl⟩
  | some (.loadKey loaded) => simp [issued, result] at responded
  | some (.dec text) => exact Or.inr ⟨text, rfl⟩

end AesCore.Engine
