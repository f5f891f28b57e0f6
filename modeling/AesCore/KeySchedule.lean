import AesCore.Clocked
import AesCore.KeyExpand

/-!
# Runs of the key schedule

Both cores clock `aes_key_expand_128` without pause and without reset, so a run of it
is arbitrary register contents and an arbitrary history of `kld`. Each load starts the
schedule afresh, a held or repeated load included; between loads the registers depend
on nothing but the key of the last one and on how many clocks have passed. The first
ten of these clocks are the key expansion of the standard, and the eleventh is not: the
constants have run out.
-/

namespace AesCore.KeyExpand

open Fips197

/-- The inputs sampled by a clock: the load, and the key that is taken with it. -/
structure Inputs where
  kld : Bool
  key : Block
  deriving DecidableEq, Inhabited

/-- The registers before each clock, for given initial contents and inputs. -/
def run (start : Registers) (inputs : Nat → Inputs) : Nat → Registers :=
  Clocked.run (fun n s => step s (inputs n).kld (inputs n).key) start

/-- One clock of a run. It is the equation by which proofs step the schedule. -/
theorem run_succ (start : Registers) (inputs : Nat → Inputs) (n : Nat) :
    run start inputs (n + 1) = step (run start inputs n) (inputs n).kld (inputs n).key := rfl

/-- The eleventh clock leaves the recurrence, for every key: its constant is zero. So ten is
the last round key that can be read. -/
theorem schedule_expires (key : Block) : (schedule key 11).w.w0 ≠ keyExpansion key 44 := by
  obtain ⟨words, _, constant⟩ := scheduled_schedule key (Nat.le_refl 10)
  have word (c : Fin 4) : (schedule key 10).w.word c = roundKey key 10 c := congrFun words c
  have exhausted : frcon (BitVec.ofNat 4 10) ≠ rcon 11 := by decide
  intro same
  apply exhausted
  have hardware : (schedule key 11).w.w0 =
      roundKey key 10 0 ^^^ (subWord (rotWord (roundKey key 10 3)) ^^^
        frcon (BitVec.ofNat 4 10)) := by
    rw [← word, ← word, ← constant, ← subword_eq, ← BitVec.xor_assoc]
    rfl
  have standard : keyExpansion key 44 = _ := round_key_first key 10
  rw [hardware, standard, BitVec.xor_right_inj, BitVec.xor_right_inj] at same
  exact same

section Load
variable (start : Registers) (inputs : Nat → Inputs) {m n : Nat}

/-- A load at clock `m` and the number of clocks without one since then determine all
registers, for any number of clocks. -/
theorem run_schedule (loaded : (inputs m).kld = true)
    (idle : ∀ i, m < i → i < m + 1 + n → (inputs i).kld = false) :
    run start inputs (m + 1 + n) = schedule (inputs m).key n := by
  refine Clocked.run_stretch (fun i => (inputs i).kld = false)
    (fun k s => s = schedule (inputs m).key k) ?_ ?_ (Nat.le_refl n) idle
  · change run start inputs (m + 1) = _
    rw [run_succ, loaded, step_forgets]
  · intro k s _ quiet reached
    rw [reached, quiet, step_schedule]

/-- Up to the tenth clock after a load, words, counter and constant are in step with the
standard. -/
theorem run_scheduled (loaded : (inputs m).kld = true)
    (idle : ∀ i, m < i → i < m + 1 + n → (inputs i).kld = false) (bounded : n ≤ 10) :
    Scheduled (inputs m).key n (run start inputs (m + 1 + n)) := by
  rw [run_schedule start inputs loaded idle]
  exact scheduled_schedule (inputs m).key bounded

/-- The outputs after a load of `key` and `n` clocks without one are the four words of
round key `n`, whatever the registers held before the load, whatever loads came before it
and whatever the key input carries after it. -/
theorem outputs_after_load (loaded : (inputs m).kld = true)
    (idle : ∀ i, m < i → i ≤ m + n → (inputs i).kld = false) (bounded : n ≤ 10) :
    (run start inputs (m + 1 + n)).w.w0 = keyExpansion (inputs m).key (4 * n) ∧
      (run start inputs (m + 1 + n)).w.w1 = keyExpansion (inputs m).key (4 * n + 1) ∧
      (run start inputs (m + 1 + n)).w.w2 = keyExpansion (inputs m).key (4 * n + 2) ∧
      (run start inputs (m + 1 + n)).w.w3 = keyExpansion (inputs m).key (4 * n + 3) := by
  have scheduled := run_scheduled start inputs loaded
    (fun i after before => idle i after (by omega)) bounded
  have word (c : Fin 4) := congrFun scheduled.1 c
  exact ⟨word 0, word 1, word 2, word 3⟩

end Load

/-- Loads at clocks 3 and 5, and a key input that changes at every clock, so that a late
load or a late key would show. -/
def reloaded (n : Nat) : Inputs := ⟨n == 3 || n == 5, BitVec.ofNat 128 n⟩

/-- Ten clocks after the second load its last round key is shown, and nothing of the first
one. -/
theorem outputs_after_load_reloaded :
    (run default reloaded 16).w.w0 = keyExpansion 5#128 40 ∧
      (run default reloaded 16).w.w1 = keyExpansion 5#128 41 ∧
      (run default reloaded 16).w.w2 = keyExpansion 5#128 42 ∧
      (run default reloaded 16).w.w3 = keyExpansion 5#128 43 := by
  refine outputs_after_load default reloaded (m := 5) (n := 10) rfl ?_ (Nat.le_refl 10)
  intro i after _
  simp [reloaded, show i ≠ 3 by omega, show i ≠ 5 by omega]

end AesCore.KeyExpand
