import AesCore.CipherRun
import AesCore.InvCipherRun

/-!
# Encryption wired to decryption

The top of the test bench drives both cores from one pulse: it loads the cipher and
the key buffer of the decipher with a shared key, and the cipher's `done` and
`text_out` are the decipher's `ld` and `text_in`. A pulse therefore starts a chain of
two operations whose second half begins at the first clock at which the reloaded
buffer is complete.

The chain returns the text it was given. The next pulse may come while the
decryption still reads the buffer: its first write reaches slot 10 just after that
slot has been read.
-/

namespace AesCore.RoundTrip

open Fips197

/-- The signals the test bench drives. One pulse `kld` loads the key for both cores and the
text for the cipher. -/
structure Inputs where
  rst : Bool
  kld : Bool
  key : Block
  textIn : Block
  deriving Inhabited

/-- The registers of the two instances. The wires between them carry no state of their
own. -/
structure Registers where
  u0 : CipherTop.Registers
  u1 : InvCipherTop.Registers
  deriving Inhabited

/-- The port connections of `u0`, whose `ld` is the pulse that loads the key of `u1`. -/
def cipherInputs (i : Inputs) : CipherTop.Inputs where
  rst := i.rst
  ld := i.kld
  key := i.key
  textIn := i.textIn

/-- The port connections of `u1`, whose `ld` and `text_in` are `done` and `text_out` of
`u0`. -/
def decipherInputs (u0 : CipherTop.Registers) (i : Inputs) : InvCipherTop.Inputs where
  rst := i.rst
  kld := i.kld
  ld := u0.done
  key := i.key
  textIn := u0.textOut

/-- One clock of both instances. The decipher samples what the cipher has shown before the
clock. -/
def step (s : Registers) (i : Inputs) (outside : Block) : Registers where
  u0 := CipherTop.step s.u0 (cipherInputs i)
  u1 := InvCipherTop.step s.u1 (decipherInputs s.u0 i) outside

/-- A run of the two instances: the registers at its start, the inputs at every clock, and
the words that reads past the end of the key buffer give. -/
structure Run where
  start : Registers
  inputs : Nat → Inputs
  outside : Nat → Block

/-- The registers before each clock of a run, from its start on. -/
def Run.state (run : Run) : Nat → Registers :=
  Clocked.run (fun n s => step s (run.inputs n) (run.outside n)) run.start

/-- The inputs of the cipher in a run, which do not depend on its registers. -/
def Run.cipher (run : Run) (n : Nat) : CipherTop.Inputs := cipherInputs (run.inputs n)

/-- The decipher's part of a run, as a run of its own. Its inputs are what the cipher shows
it, clock by clock. -/
def Run.decipher (run : Run) : InvCipherTop.Run where
  start := run.start.u1
  inputs n := decipherInputs (run.state n).u0 (run.inputs n)
  outside := run.outside

/-- The cipher runs on its own, so what is known of its runs holds for it here. -/
theorem state_u0 (run : Run) (n : Nat) :
    (run.state n).u0 = CipherTop.run run.start.u0 run.cipher n :=
  Clocked.run_map Registers.u0 (fun _ => rfl) n

/-- The decipher runs on what the cipher shows it. Its registers are those of a run with
these inputs. -/
theorem state_u1 (run : Run) (n : Nat) : (run.state n).u1 = run.decipher.state n :=
  Clocked.run_map Registers.u1 (fun _ => rfl) n

/-- Reset for at least two clocks and never again, and at least twenty clocks without a
pulse after every pulse. The other inputs are arbitrary at every clock. -/
structure Run.Pulsed (run : Run) (first : Nat) : Prop where
  two : 2 ≤ first
  reset : ∀ n, (run.inputs n).rst = decide (first ≤ n)
  apart : ∀ t n, first ≤ t → (run.inputs t).kld = true → t < n → n ≤ t + 20 →
    (run.inputs n).kld = false

section Pulsed
variable {run : Run} {first : Nat}

/-- The clocks before `first` are clocks of reset, two at least, so both cores start
idle. -/
theorem Run.Pulsed.rst_false (pulsed : run.Pulsed first) {n : Nat} (before : n < first) :
    (run.inputs n).rst = false :=
  (pulsed.reset n).trans (decide_eq_false (Nat.not_le_of_lt before))

/-- From `first` on there is no reset any more, so no operation is cut off. -/
theorem Run.Pulsed.rst_true (pulsed : run.Pulsed first) {n : Nat} (later : first ≤ n) :
    (run.inputs n).rst = true :=
  (pulsed.reset n).trans (decide_eq_true later)

/-- The cipher completes twelve clocks after each pulse and at no other time, because pulses
are far enough apart that none disturbs another. -/
theorem cipher_done (pulsed : run.Pulsed first) {n : Nat} (later : first ≤ n) :
    (run.state n).u0.done = true ↔
      ∃ t, first ≤ t ∧ (run.inputs t).kld = true ∧ n = t + 12 := by
  have two := pulsed.two
  have last : (run.cipher (first - 1)).rst = false := pulsed.rst_false (by omega)
  rw [state_u0, CipherTop.done_since run.start.u0 last (by omega), Clocked.since_iff]
  constructor
  · rintro ⟨t, rfl, ⟨up, pulse⟩, _⟩
    have from' : first ≤ t := of_decide_eq_true ((pulsed.reset t).symm.trans up)
    exact ⟨t, from', pulse, by omega⟩
  · rintro ⟨t, from', pulse, rfl⟩
    exact ⟨t, by omega, ⟨pulsed.rst_true from', pulse⟩, fun i after before =>
      ⟨pulsed.rst_true (by omega), pulsed.apart t i from' pulse after (by omega)⟩⟩

/-- Twelve clocks after a pulse the cipher shows the ciphertext of the key and the text that
the pulse came with. -/
theorem cipher_text (pulsed : run.Pulsed first) {t : Nat} (later : first ≤ t)
    (pulse : (run.inputs t).kld = true) :
    (run.state (t + 12)).u0.textOut = cipher (run.inputs t).key (run.inputs t).textIn := by
  rw [state_u0]
  exact CipherTop.text_out_after_load run.start.u0 run.cipher pulse fun i after before =>
    pulsed.apart t i later pulse after (by omega)

/-- The decipher's loads leave room between them. They are the completions of the cipher,
and these are as far apart as the pulses are. -/
theorem decipher_spaced (pulsed : run.Pulsed first) : run.decipher.Spaced first where
  idle := by
    obtain ⟨m, rfl⟩ : ∃ m, first = m + 2 := ⟨first - 2, by have := pulsed.two; omega⟩
    exact InvCipherTop.idle_after_reset run.decipher (pulsed.rst_false (by omega))
      (pulsed.rst_false (by omega))
  running _ later := pulsed.rst_true later
  apart u n from' loaded after close := by
    obtain ⟨t, start, pulse, rfl⟩ := (cipher_done pulsed from').mp loaded
    have none : ¬ (run.state n).u0.done = true := by
      intro again
      obtain ⟨p, _, other, rfl⟩ := (cipher_done pulsed (by omega)).mp again
      have idle := pulsed.apart t p start pulse (by omega) (by omega)
      exact Bool.false_ne_true (idle.symm.trans other)
    exact Bool.eq_false_iff.mpr none

/-- From twelve clocks after a pulse up to the next read of its last slot, the buffer holds
the key of that pulse. The next pulse writes this slot in the clock of that read, which
still finds the old word. -/
theorem key_in_place (pulsed : run.Pulsed first) {t k : Nat} (later : first ≤ t)
    (pulse : (run.inputs t).kld = true) (inside : k ≤ 10) :
    InvCipherTop.Complete (run.inputs t).key (run.decipher.state (t + 12 + k)) := by
  have idle (i : Nat) (after : t < i) (close : i ≤ t + 20) : (run.decipher.inputs i).kld = false :=
    pulsed.apart t i later pulse after close
  obtain ⟨complete, closed⟩ := InvCipherTop.key_loaded run.decipher (t := t)
    ⟨pulsed.rst_true later, pulse⟩
    fun i after before => ⟨pulsed.rst_true (by omega), idle i after (by omega)⟩
  refine InvCipherTop.complete_held run.decipher (by omega) complete closed ?_
  rintro i after before ⟨_, fired⟩
  exact Bool.false_ne_true ((idle i (by omega) (by omega)).symm.trans fired)

/-- The decipher completes twenty-four clocks after each pulse and at no other time: twelve
clocks after the cipher, whose completion loads it. -/
theorem decipher_done (pulsed : run.Pulsed first) {n : Nat} (later : first ≤ n) :
    (run.state n).u1.done = true ↔
      ∃ t, first ≤ t ∧ (run.inputs t).kld = true ∧ n = t + 24 := by
  rw [state_u1, InvCipherTop.done_spaced (decipher_spaced pulsed) later]
  constructor
  · rintro ⟨u, from', loaded, rfl⟩
    obtain ⟨t, start, pulse, rfl⟩ := (cipher_done pulsed from').mp loaded
    exact ⟨t, start, pulse, rfl⟩
  · rintro ⟨t, start, pulse, rfl⟩
    have loaded := (cipher_done pulsed (n := t + 12) (by omega)).mpr ⟨t, start, pulse, rfl⟩
    exact ⟨t + 12, by omega, loaded, rfl⟩

/-- There it shows the text of the pulse. It was loaded with the ciphertext of that text, by
an idle core, and read the round keys of the key under which the text was enciphered. -/
theorem decipher_text (pulsed : run.Pulsed first) {t : Nat} (later : first ≤ t)
    (pulse : (run.inputs t).kld = true) :
    (run.state (t + 24)).u1.textOut = (run.inputs t).textIn := by
  have spaced := decipher_spaced pulsed
  have loaded := (cipher_done pulsed (n := t + 12) (by omega)).mpr ⟨t, later, pulse, rfl⟩
  have idle := InvCipherTop.idle_spaced spaced (u := t + 12) (by omega) loaded
  have text := InvCipherTop.decrypts run.decipher (u := t + 12)
    ⟨pulsed.rst_true (by omega), loaded⟩ (BitVec.eq_of_toNat_eq idle.dcnt) idle.done
    (fun i after before => ⟨pulsed.rst_true (by omega),
      spaced.apart (t + 12) i (by omega) loaded after (by omega)⟩)
    (fun k inside => key_in_place pulsed later pulse inside)
  rw [state_u1]
  refine text.trans ?_
  change invCipher _ (run.state (t + 12)).u0.textOut = _
  rw [cipher_text pulsed later pulse, inv_cipher_cipher]

end Pulsed

/-- The hardware round trip. Each pulse makes the decipher report completion after the
twenty-third clock that follows it, nothing else does, and the text shown there is the text
that the pulse supplied, because both cores work under the key that it came with. -/
theorem round_trip (run : Run) {first : Nat} (two : 2 ≤ first)
    (reset : ∀ n, (run.inputs n).rst = decide (first ≤ n))
    (apart : ∀ t n, first ≤ t → (run.inputs t).kld = true → t < n → n < t + 21 →
      (run.inputs n).kld = false) :
    (∀ n, first ≤ n + 1 → ((run.state (n + 1)).u1.done = true ↔
      ∃ t, first ≤ t ∧ (run.inputs t).kld = true ∧ n = t + 23)) ∧
    ∀ t, first ≤ t → (run.inputs t).kld = true →
      (run.state (t + 23 + 1)).u1.textOut = (run.inputs t).textIn := by
  have pulsed : run.Pulsed first := ⟨two, reset, fun t n from' pulse after close =>
    apart t n from' pulse after (Nat.lt_succ_of_le close)⟩
  refine ⟨fun n later => ?_, fun t later pulse => decipher_text pulsed later pulse⟩
  rw [decipher_done pulsed later]
  exact exists_congr fun t => and_congr_right fun _ => and_congr_right fun _ =>
    (Nat.succ_inj (a := n) (b := t + 23))

/-- Two clocks of reset, then one pulse with an all-ones text under the zero key. -/
def singlePulse : Run where
  start := default
  inputs n := ⟨decide (2 ≤ n), n == 2, 0#128, BitVec.allOnes 128⟩
  outside _ := 0#128

/-- The pulse at clock 2 returns its text after clock 25, in the state before clock 26. -/
theorem round_trip_single_pulse :
    (singlePulse.state 26).u1.done = true ∧
      (singlePulse.state 26).u1.textOut = BitVec.allOnes 128 := by
  have trip := round_trip singlePulse (Nat.le_refl 2) (fun _ => rfl) fun t n _ pulse after _ => by
    have same : t = 2 := by simpa [singlePulse] using pulse
    simp [singlePulse, show n ≠ 2 by omega]
  exact ⟨(trip.1 25 (by decide)).mpr ⟨2, by decide, rfl, rfl⟩, trip.2 2 (by decide) rfl⟩

end AesCore.RoundTrip
