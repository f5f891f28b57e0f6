import AesCore.AesTop

/-!
# Isolation of the two modes

Key and text reach both cores in both modes; only the load signals are gated. What keeps
the modes apart is that neither core looks at key or text in a clock without a load,
although most of its registers change at every clock. `effective` is what a clock reads of
its inputs, and a core cannot tell two clocks with the same effective inputs apart.

The gating then leaves nothing of a clock in the other mode but its reset. Two runs that
agree in one mode therefore agree in all registers of the core of that mode, whatever the
other mode carries and however the two are interleaved.
-/

namespace AesCore

open Fips197

namespace CipherTop

/-- What a clock reads of its inputs: key and text only with a load. What it does not read
is set to zero. -/
def Inputs.effective (i : Inputs) : Inputs where
  rst := i.rst
  ld := i.ld
  key := if i.ld then i.key else 0#128
  textIn := if i.ld then i.textIn else 0#128

/-- A clock reads nothing else: it does the same on the inputs cut down to what it reads. -/
theorem step_effective (s : Registers) (i : Inputs) : step s i.effective = step s i := by
  cases loaded : i.ld <;>
    simp only [step, KeyExpand.step, Inputs.effective, loaded, Bool.false_eq_true, ↓reduceIte]

/-- Runs whose effective inputs agree are equal, by induction over the clocks. -/
theorem run_effective (start : Registers) {left right : Nat → Inputs}
    (same : ∀ n, (left n).effective = (right n).effective) (n : Nat) :
    run start left n = run start right n := by
  refine Clocked.run_congr (fun i s => ?_) start n
  rw [← step_effective, same, step_effective]

end CipherTop

namespace InvCipherTop

/-- What a clock reads of its inputs: the key only with `kld`, the text only with `ld`. What
it does not read is set to zero. -/
def Inputs.effective (i : Inputs) : Inputs where
  rst := i.rst
  kld := i.kld
  ld := i.ld
  key := if i.kld then i.key else 0#128
  textIn := if i.ld then i.textIn else 0#128

/-- A clock reads nothing else: it does the same on the inputs cut down to what it reads. -/
theorem step_effective (s : Registers) (i : Inputs) (outside : Block) :
    step s i.effective outside = step s i outside := by
  cases keyLoaded : i.kld <;> cases loaded : i.ld <;>
    simp only [step, KeyExpand.step, Inputs.effective, keyLoaded, loaded, Bool.false_eq_true,
      ↓reduceIte]

/-- Runs from the same contents whose effective inputs agree are equal. The words that reads
past the end of the buffer give must agree too. -/
theorem run_effective {left right : Run} (start : left.start = right.start)
    (outside : left.outside = right.outside)
    (same : ∀ n, (left.inputs n).effective = (right.inputs n).effective) (n : Nat) :
    left.state n = right.state n := by
  rw [Run.state, Run.state, start]
  refine Clocked.run_congr (fun i s => ?_) right.start n
  rw [← step_effective, same, step_effective, outside]

end InvCipherTop

namespace AesTop

/-- The encryption core reads key and text of clocks in mode 0 only, because in mode 1 its
load is gated. -/
theorem cipher_effective {left right : Inputs} (rst : left.rst = right.rst)
    (mode : left.mode = right.mode)
    (same : left.mode = false →
      left.ld = right.ld ∧ left.key = right.key ∧ left.textIn = right.textIn) :
    (cipherInputs left).effective = (cipherInputs right).effective := by
  cases encrypting : left.mode with
  | true =>
    have other : right.mode = true := mode.symm.trans encrypting
    simp [cipherInputs, CipherTop.Inputs.effective, ldE, encrypting, other, rst]
  | false =>
    obtain ⟨ld, key, text⟩ := same encrypting
    simp only [cipherInputs, CipherTop.Inputs.effective, ldE, ← mode, ← rst, ld, key, text]

/-- The decryption core reads key and text of clocks in mode 1 only, because in mode 0 both
of its loads are gated. -/
theorem decipher_effective {left right : Inputs} (rst : left.rst = right.rst)
    (mode : left.mode = right.mode)
    (same : left.mode = true → left.ld = right.ld ∧ left.kld = right.kld ∧
      left.key = right.key ∧ left.textIn = right.textIn) :
    (decipherInputs left).effective = (decipherInputs right).effective := by
  cases decrypting : left.mode with
  | true =>
    obtain ⟨ld, kld, key, text⟩ := same decrypting
    simp only [decipherInputs, InvCipherTop.Inputs.effective, ldD, kldD, ← mode, ← rst, ld, kld,
      key, text]
  | false =>
    have other : right.mode = false := mode.symm.trans decrypting
    simp [decipherInputs, InvCipherTop.Inputs.effective, ldD, kldD, decrypting, other, rst]

section TwoRuns
variable {left right : Run} (start : left.start = right.start)
  (rst : ∀ n, (left.inputs n).rst = (right.inputs n).rst)
  (mode : ∀ n, (left.inputs n).mode = (right.inputs n).mode)
include start rst mode

/-- Runs that agree in mode 0 agree in all registers of the encryption core, not only in its
outputs. -/
theorem cipher_isolated
    (same : ∀ n, (left.inputs n).mode = false → (left.inputs n).ld = (right.inputs n).ld ∧
      (left.inputs n).key = (right.inputs n).key ∧
      (left.inputs n).textIn = (right.inputs n).textIn) (n : Nat) :
    (left.state n).cipher = (right.state n).cipher := by
  rw [state_cipher, state_cipher, start]
  exact CipherTop.run_effective right.start.cipher
    (fun n => cipher_effective (rst n) (mode n) (same n)) n

/-- Runs that agree in mode 1 agree in all registers of the decryption core, the key buffer
included. -/
theorem decipher_isolated (outside : left.outside = right.outside)
    (same : ∀ n, (left.inputs n).mode = true → (left.inputs n).ld = (right.inputs n).ld ∧
      (left.inputs n).kld = (right.inputs n).kld ∧
      (left.inputs n).key = (right.inputs n).key ∧
      (left.inputs n).textIn = (right.inputs n).textIn) (n : Nat) :
    (left.state n).decipher = (right.state n).decipher := by
  rw [state_decipher, state_decipher]
  exact InvCipherTop.run_effective (congrArg Registers.decipher start) outside
    (fun n => decipher_effective (rst n) (mode n) (same n)) n

end TwoRuns

/-- The two modes are isolated from each other. In two runs from the same contents with the
same reset and mode, the results of the decryption core depend on nothing that a clock in
mode 0 carries, and those of the encryption core on nothing that a clock in mode 1
carries. -/
theorem modes_isolated (left right : Run) (start : left.start = right.start)
    (outside : left.outside = right.outside)
    (rst : ∀ n, (left.inputs n).rst = (right.inputs n).rst)
    (mode : ∀ n, (left.inputs n).mode = (right.inputs n).mode) :
    ((∀ n, (left.inputs n).mode = true → (left.inputs n).ld = (right.inputs n).ld ∧
        (left.inputs n).kld = (right.inputs n).kld ∧
        (left.inputs n).key = (right.inputs n).key ∧
        (left.inputs n).textIn = (right.inputs n).textIn) →
      ∀ n, (left.state n).decipher.done = (right.state n).decipher.done ∧
        (left.state n).decipher.textOut = (right.state n).decipher.textOut) ∧
    ((∀ n, (left.inputs n).mode = false → (left.inputs n).ld = (right.inputs n).ld ∧
        (left.inputs n).key = (right.inputs n).key ∧
        (left.inputs n).textIn = (right.inputs n).textIn) →
      ∀ n, (left.state n).cipher.done = (right.state n).cipher.done ∧
        (left.state n).cipher.textOut = (right.state n).cipher.textOut) := by
  constructor
  · intro same n
    have registers := decipher_isolated start rst mode outside same n
    rw [registers]
    exact ⟨rfl, rfl⟩
  · intro same n
    have registers := cipher_isolated start rst mode same n
    rw [registers]
    exact ⟨rfl, rfl⟩

/-- Two clocks of reset, a key load for decryption at clock 2, a decryption at clock 14 and
an encryption at clock 15. Every clock in mode 1 carries one key and text, every clock in
mode 0 another. -/
def overlapping (decryption encryption : Block) : Run where
  start := default
  inputs n :=
    let carried := if n == 15 then encryption else decryption
    ⟨decide (2 ≤ n), n != 15, n == 14 || n == 15, n == 2, carried, carried⟩
  outside _ := 0#128

/-- Neither result changes with the key and text of the other mode, although the operations
overlap. -/
theorem modes_isolated_overlapping :
    (((overlapping 0#128 0#128).state 26).decipher.done =
        ((overlapping 0#128 1#128).state 26).decipher.done ∧
      ((overlapping 0#128 0#128).state 26).decipher.textOut =
        ((overlapping 0#128 1#128).state 26).decipher.textOut) ∧
    ((overlapping 0#128 0#128).state 27).cipher.done =
        ((overlapping 1#128 0#128).state 27).cipher.done ∧
      ((overlapping 0#128 0#128).state 27).cipher.textOut =
        ((overlapping 1#128 0#128).state 27).cipher.textOut := by
  have decryption := modes_isolated (overlapping 0#128 0#128) (overlapping 0#128 1#128) rfl rfl
    (fun _ => rfl) (fun _ => rfl)
  have encryption := modes_isolated (overlapping 0#128 0#128) (overlapping 1#128 0#128) rfl rfl
    (fun _ => rfl) (fun _ => rfl)
  constructor
  · refine decryption.1 ?_ 26
    intro n decrypting
    have other : n ≠ 15 := by simpa [overlapping] using decrypting
    simp [overlapping, other]
  · refine encryption.2 ?_ 27
    intro n encrypting
    have same : n = 15 := by simpa [overlapping] using encrypting
    simp [overlapping, same]

end AesTop

end AesCore
