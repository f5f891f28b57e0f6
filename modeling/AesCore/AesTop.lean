import AesCore.CipherRun
import AesCore.InvCipherRun

/-!
# The two cores behind one interface

Module `aes_top`: `mode` gates the load signals of the two cores, key and text reach
both, and one block selects the outputs. That block assigns procedurally, so what it
assigned last stays in force and follows its core until the next completion; before
the first completion it may have assigned nothing.

Each core runs on its own gated inputs. Their completions reach the interface unless
both cores complete in the same state, where the encryption prevails. The decryption
core takes as long as the encryption core from every load but one, the load in the
clock where its `done` is set, which takes a clock longer. An encryption loaded right
after such a decryption, with nothing to disturb either, is the one way to a
collision.
-/

namespace AesCore.AesTop

open Fips197

/-- The signals of the interface that the environment drives. Both cores see the same key
and the same text; `mode` decides which of them is loaded. -/
structure Inputs where
  rst : Bool
  mode : Bool
  ld : Bool
  kld : Bool
  key : Block
  textIn : Block
  deriving Inhabited

/-- The core whose outputs are assigned to `d.text_out` and `d.done`. A procedural
continuous assignment stays in force until another one replaces it. -/
inductive Source where
  | cipher
  | decipher
  deriving DecidableEq

/-- The registers of the two cores, and the assignment that was in force before the output
block looked at them. -/
structure Registers where
  cipher : CipherTop.Registers
  decipher : InvCipherTop.Registers
  assigned : Option Source
  deriving Inhabited

/-- The gated load of the encryption core, which follows `ld` in mode 0. -/
def ldE (i : Inputs) : Bool := if i.mode = false then i.ld else false

/-- The gated load of the decryption core, which follows `ld` in mode 1. -/
def ldD (i : Inputs) : Bool := if i.mode = false then false else i.ld

/-- The gated key load of the decryption core. The encryption core has none, since it takes
its key with each load. -/
def kldD (i : Inputs) : Bool := if i.mode = false then false else i.kld

/-- The port connections of `cipher`. Its reset is that of the interface, and not gated. -/
def cipherInputs (i : Inputs) : CipherTop.Inputs where
  rst := i.rst
  ld := ldE i
  key := i.key
  textIn := i.textIn

/-- The port connections of `decipher`, with both of its loads gated and the reset as it
is. -/
def decipherInputs (i : Inputs) : InvCipherTop.Inputs where
  rst := i.rst
  kld := kldD i
  ld := ldD i
  key := i.key
  textIn := i.textIn

/-- The assignment in force once the output block has run: a new one where a core shows
completion, else the old one. The encryption core comes first. -/
def source (s : Registers) : Option Source :=
  if s.cipher.done then some .cipher
  else if s.decipher.done then some .decipher
  else s.assigned

/-- The output `d.done`, which has no value before the first assignment. It follows the
`done` of the core that is assigned. -/
def done (s : Registers) : Option Bool :=
  (source s).map fun
    | .cipher => s.cipher.done
    | .decipher => s.decipher.done

/-- The output `d.text_out`, which has no value before the first assignment. It goes on
following the register of the core that is assigned. -/
def textOut (s : Registers) : Option Block :=
  (source s).map fun
    | .cipher => s.cipher.textOut
    | .decipher => s.decipher.textOut

/-- One clock of `aes_top`: both cores make theirs, and the assignment that the output block
has made stays for the next clock. -/
def step (s : Registers) (i : Inputs) (outside : Block) : Registers where
  cipher := CipherTop.step s.cipher (cipherInputs i)
  decipher := InvCipherTop.step s.decipher (decipherInputs i) outside
  assigned := source s

/-- A run of `aes_top`: the registers at its start, the inputs at every clock, and the words
that reads past the end of the key buffer give. -/
structure Run where
  start : Registers
  inputs : Nat → Inputs
  outside : Nat → Block

/-- The registers before each clock of a run, from its start on. -/
def Run.state (run : Run) : Nat → Registers :=
  Clocked.run (fun n s => step s (run.inputs n) (run.outside n)) run.start

/-- The inputs of the encryption core in a run, which depend on the interface only. -/
def Run.cipher (run : Run) (n : Nat) : CipherTop.Inputs := cipherInputs (run.inputs n)

/-- The decryption core's part of a run, as a run of its own. -/
def Run.decipher (run : Run) : InvCipherTop.Run where
  start := run.start.decipher
  inputs n := decipherInputs (run.inputs n)
  outside := run.outside

/-- The encryption core runs on its own, so what is known of its runs holds inside
`aes_top`. -/
theorem state_cipher (run : Run) (n : Nat) :
    (run.state n).cipher = CipherTop.run run.start.cipher run.cipher n :=
  Clocked.run_map Registers.cipher (fun _ => rfl) n

/-- The decryption core runs on its own. The two cores share their inputs and nothing
else. -/
theorem state_decipher (run : Run) (n : Nat) :
    (run.state n).decipher = run.decipher.state n :=
  Clocked.run_map Registers.decipher (fun _ => rfl) n

/-- The encryption core starts in mode 0, where `ld` is set. -/
theorem ld_e_iff (i : Inputs) : ldE i = true ↔ i.mode = false ∧ i.ld = true := by
  cases mode : i.mode <;> simp [ldE, mode]

/-- The decryption core starts in mode 1, where `ld` is set. -/
theorem ld_d_iff (i : Inputs) : ldD i = true ↔ i.mode = true ∧ i.ld = true := by
  cases mode : i.mode <;> simp [ldD, mode]

/-- The key buffer is loaded in mode 1, where `kld` is set. -/
theorem kld_d_iff (i : Inputs) : kldD i = true ↔ i.mode = true ∧ i.kld = true := by
  cases mode : i.mode <;> simp [kldD, mode]

/-- Neither core starts exactly where `ld` is clear, whatever the mode is. -/
theorem ld_clear_iff (i : Inputs) : i.ld = false ↔ ldE i = false ∧ ldD i = false := by
  cases mode : i.mode <;> simp [ldE, ldD, mode]

/-- A completed encryption is on the interface, because the output block looks at its core
first. -/
theorem cipher_visible {s : Registers} (completed : s.cipher.done = true) :
    done s = some true ∧ textOut s = some s.cipher.textOut := by
  simp [done, textOut, source, completed]

/-- A completed decryption is on the interface unless an encryption completes in the same
state, which would come first. -/
theorem decipher_visible {s : Registers} (completed : s.decipher.done = true)
    (alone : s.cipher.done = false) :
    done s = some true ∧ textOut s = some s.decipher.textOut := by
  simp [done, textOut, source, completed, alone]

/-- Where neither core completes, an assigned output follows a core that is not done, and
shows zero. Without an assignment it has no value. -/
theorem nothing_visible {s : Registers} (cipher : s.cipher.done = false)
    (decipher : s.decipher.done = false) : done s = s.assigned.map fun _ => false := by
  simp only [done, source, cipher, decipher, Bool.false_eq_true, ↓reduceIte]
  cases s.assigned with
  | none => rfl
  | some assigned => cases assigned <;> rfl

/-- The interface reports completion exactly where a core does. What it shows otherwise is
the `done` of a core that has completed before. -/
theorem done_iff (s : Registers) :
    done s = some true ↔ s.cipher.done = true ∨ s.decipher.done = true := by
  cases cipher : s.cipher.done
  · cases decipher : s.decipher.done
    · rw [nothing_visible cipher decipher]
      cases s.assigned <;> simp
    · simp [(decipher_visible decipher cipher).1]
  · simp [(cipher_visible cipher).1]

/-- An assignment is in force where a core completes, or where one was before. It is never
withdrawn. -/
theorem source_is_some (s : Registers) :
    (source s).isSome = (s.cipher.done || s.decipher.done || s.assigned.isSome) := by
  cases cipher : s.cipher.done <;> cases decipher : s.decipher.done <;>
    simp [source, cipher, decipher]

/-- From the first completion on, some assignment is in force. The induction is over the
clocks since then. -/
theorem assigned_after (run : Run) {k n : Nat} (before : k < n)
    (completed : (run.state k).cipher.done = true ∨ (run.state k).decipher.done = true) :
    (run.state n).assigned.isSome = true := by
  induction n, before using Nat.le_induction with
  | base =>
    change (source (run.state k)).isSome = true
    rw [source_is_some]
    rcases completed with cipher | decipher
    · simp [cipher]
    · simp [decipher]
  | succ n before inductionHypothesis =>
    change (source (run.state n)).isSome = true
    rw [source_is_some, inductionHypothesis, Bool.or_true]

end AesCore.AesTop
