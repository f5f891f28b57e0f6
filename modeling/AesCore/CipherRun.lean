import AesCore.CipherTop

/-!
# Runs of the encryption core

A run starts from arbitrary registers with one clock of reset and is free
afterwards: any clock may load, any clock may reset, and the key and text inputs
change at will. The counter `dcnt` then measures the distance to the latest load
that nothing has cancelled, so `done` reports exactly the loads that were followed
by ten further clocks without a load or a reset.

The counter argument and the data path meet only here. The data path holds after
any load; what the counter adds is that `done` names the right one.
-/

namespace AesCore.CipherTop

open Fips197

/-- A clock that starts an operation: it loads and does not reset. -/
def Fired (inputs : Nat → Inputs) (n : Nat) : Prop :=
  (inputs n).rst = true ∧ (inputs n).ld = true

/-- A clock that lets an operation proceed: it neither loads nor resets. -/
def Quiet (inputs : Nat → Inputs) (n : Nat) : Prop :=
  (inputs n).rst = true ∧ (inputs n).ld = false

/-- No clock does both, so a history of firings and quiet clocks is unambiguous. -/
theorem fired_not_quiet (inputs : Nat → Inputs) (n : Nat) (fired : Fired inputs n) :
    ¬ Quiet inputs n := by
  rintro ⟨_, idle⟩
  exact Bool.false_ne_true (idle.symm.trans fired.2)

/-- The counter as a number: reset to zero, loaded with eleven, else counted down to zero,
where it stays. -/
theorem step_dcnt (s : Registers) (i : Inputs) :
    (step s i).dcnt.toNat = if !i.rst then 0 else if i.ld then 11 else s.dcnt.toNat - 1 := by
  have counted : ∀ d : BitVec 4,
      (if d != 0x0#4 then d - 0x1#4 else d).toNat = d.toNat - 1 := by decide
  cases reset : i.rst
  · simp [step, reset]
  · cases loaded : i.ld
    · simpa [step, reset, loaded] using counted s.dcnt
    · simp [step, reset, loaded]

/-- The done bit rises from count one, unless the same clock loads or resets. Otherwise it
falls, so completion is shown for one clock. -/
theorem step_done (s : Registers) (i : Inputs) :
    (step s i).done = true ↔ i.rst = true ∧ i.ld = false ∧ s.dcnt.toNat = 1 := by
  have last : ∀ d : BitVec 4,
      (!(d.extractLsb 3 1 != 0b000#3) && d.getLsbD 0) = true ↔ d.toNat = 1 := by decide
  cases reset : i.rst
  · simp [step, reset]
  · cases loaded : i.ld
    · simpa [step, reset, loaded] using last s.dcnt
    · simp [step, reset, loaded]

/-- What the control registers know before clock `n`: the counter stands at
`11 - k` exactly when the latest load lies `k` quiet clocks back, and `done` is set
exactly when it lies eleven quiet clocks back. -/
structure Control (inputs : Nat → Inputs) (n : Nat) (s : Registers) : Prop where
  bounded : s.dcnt.toNat ≤ 11
  counting : ∀ k, k ≤ 10 →
    (s.dcnt.toNat = 11 - k ↔ Clocked.Since (Fired inputs) (Quiet inputs) k n)
  completed : s.done = true ↔ Clocked.Since (Fired inputs) (Quiet inputs) 11 n

/-- A clock of reset establishes the control invariant from any registers. The counter is
zero and nothing lies back that could be counted. -/
theorem control_reset {inputs : Nat → Inputs} {n : Nat} (s : Registers)
    (cleared : (inputs n).rst = false) : Control inputs (n + 1) (step s (inputs n)) := by
  have none : ∀ k, ¬ Clocked.Since (Fired inputs) (Quiet inputs) k (n + 1) := by
    intro k since
    cases k with
    | zero => exact Bool.false_ne_true (cleared.symm.trans since.1)
    | succ k => exact Bool.false_ne_true (cleared.symm.trans since.2.1)
  have zero : (step s (inputs n)).dcnt.toNat = 0 := by simp [step_dcnt, cleared]
  refine ⟨by omega, fun k small => ?_, ?_⟩
  · simp only [zero, none k, iff_false]
    omega
  · simp [step_done, cleared, none 11]

/-- Every clock keeps the control invariant. A reset, a load and a quiet clock are the three
cases, and in the last one the history grows by one. -/
theorem control_step {inputs : Nat → Inputs} {n : Nat} {s : Registers}
    (control : Control inputs n s) : Control inputs (n + 1) (step s (inputs n)) := by
  cases reset : (inputs n).rst
  · exact control_reset s reset
  · cases loaded : (inputs n).ld
    · have quiet : Quiet inputs n := ⟨reset, loaded⟩
      have notFired : ¬ Fired inputs n := fun fired => fired_not_quiet inputs n fired quiet
      have count : (step s (inputs n)).dcnt.toNat = s.dcnt.toNat - 1 := by
        simp [step_dcnt, reset, loaded]
      have bounded := control.bounded
      refine ⟨by omega, fun k small => ?_, ?_⟩
      · cases k with
        | zero =>
          simp only [count, Clocked.Since, notFired, iff_false]
          omega
        | succ k =>
          simp only [Clocked.Since, quiet, and_true, ← control.counting k (by omega), count]
          omega
      · simp only [Clocked.Since, quiet, and_true, ← control.counting 10 (by omega), step_done,
          reset, loaded, true_and, Nat.reduceSub]
    · have fired : Fired inputs n := ⟨reset, loaded⟩
      have notQuiet := fired_not_quiet inputs n fired
      have count : (step s (inputs n)).dcnt.toNat = 11 := by simp [step_dcnt, reset, loaded]
      refine ⟨by omega, fun k small => ?_, ?_⟩
      · cases k with
        | zero => simp [count, Clocked.Since, fired]
        | succ k =>
          simp only [count, Clocked.Since, notQuiet, and_false, iff_false]
          omega
      · simp [Clocked.Since, notQuiet, step_done, loaded]

/-- The control invariant holds from the first clock of reset on, whatever the registers
held and whatever the inputs are. -/
theorem control_run (start : Registers) {inputs : Nat → Inputs} {m : Nat}
    (cleared : (inputs m).rst = false) :
    ∀ n, m + 1 ≤ n → Control inputs n (run start inputs n) :=
  Clocked.run_invariant (Control inputs) (control_reset _ cleared)
    fun _ _ _ control => control_step control

/-- After a clock of reset, `done` is set exactly when a load lies eleven quiet clocks back.
This is what other modules cite of the control of the core. -/
theorem done_since (start : Registers) {inputs : Nat → Inputs} {m n : Nat}
    (cleared : (inputs m).rst = false) (later : m < n) :
    (run start inputs n).done = true ↔ Clocked.Since (Fired inputs) (Quiet inputs) 11 n :=
  (control_run start cleared n later).completed

/-- Where `done` is set, the text belongs to the load that `done` reports, since no other
load came in between. -/
theorem text_out_since (start : Registers) {inputs : Nat → Inputs} {n : Nat}
    (since : Clocked.Since (Fired inputs) (Quiet inputs) 11 (n + 1)) :
    (run start inputs (n + 1)).textOut = cipher (inputs (n - 11)).key (inputs (n - 11)).textIn := by
  obtain ⟨m, same, fired, quiet⟩ := Clocked.since_iff.mp since
  obtain rfl : n = m + 11 := by omega
  rw [Nat.add_sub_cancel]
  exact text_out_after_load start inputs fired.2 fun i after before =>
    (quiet i after (by omega)).2

/-- Exactness over a whole run. After clock `n` the core reports completion if and
only if clock `n - 11` loaded and no clock since has loaded or reset, and the text
it then shows is the ciphertext of the key and the block that clock `n - 11`
sampled. -/
theorem done_exact (start : Registers) (inputs : Nat → Inputs)
    (cleared : (inputs 0).rst = false) (n : Nat) :
    ((run start inputs (n + 1)).done = true ↔
      11 ≤ n ∧ ((inputs (n - 11)).rst = true ∧ (inputs (n - 11)).ld = true) ∧
        ∀ i, n - 11 < i → i ≤ n → (inputs i).rst = true ∧ (inputs i).ld = false) ∧
    ((run start inputs (n + 1)).done = true →
      (run start inputs (n + 1)).textOut =
        cipher (inputs (n - 11)).key (inputs (n - 11)).textIn) := by
  have completed := done_since start (n := n + 1) cleared (Nat.succ_pos n)
  refine ⟨completed.trans ⟨?_, ?_⟩, fun done => text_out_since start (completed.mp done)⟩
  · intro since
    obtain ⟨m, same, fired, quiet⟩ := Clocked.since_iff.mp since
    obtain rfl : n = m + 11 := by omega
    rw [Nat.add_sub_cancel]
    exact ⟨by omega, fired, fun i after before => quiet i after (by omega)⟩
  · rintro ⟨enough, fired, quiet⟩
    exact Clocked.since_iff.mpr ⟨n - 11, by omega, fired, fun i after before =>
      quiet i after (by omega)⟩

/-- One clock of reset, then a single load of the zero block under the zero key. -/
def singleLoad (n : Nat) : Inputs := ⟨n != 0, n == 1, 0#128, 0#128⟩

/-- The load at clock 1 completes after clock 12, and the text is its ciphertext. -/
theorem done_exact_single_load :
    (run default singleLoad 13).done = true ∧
      (run default singleLoad 13).textOut = cipher 0#128 0#128 := by
  obtain ⟨completed, text⟩ := done_exact default singleLoad rfl 12
  have done := completed.mpr ⟨by decide, ⟨rfl, rfl⟩, fun i after before => by
    obtain ⟨k, rfl⟩ : ∃ k, i = k + 2 := ⟨i - 2, by omega⟩
    exact ⟨rfl, rfl⟩⟩
  exact ⟨done, text done⟩

end AesCore.CipherTop
