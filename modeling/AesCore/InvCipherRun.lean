import AesCore.InvControl
import AesCore.KeyBuffer

/-!
# Runs of the decryption core

A decryption reads slot `k` of the buffer at the clock `k` after its load, and the
word reaches the data path one clock later. Control and buffer meet in that one
fact: where the counter stands at `k` and slot `k` holds a round key, the data path
receives that round key. A load on an idle core therefore yields the inverse cipher
whenever each slot holds the right round key at the clock that reads it, and a key
load that began twelve clocks earlier, with no other key load up to eight clocks
after the load, provides exactly that.
-/

namespace AesCore.InvCipherTop

open Fips197
open StateRegisters

/-- The counter selects the slot that the data path receives one clock later. So the round
keys that a decryption uses are those that its count runs over. -/
theorem slots_counted (run : Run) {key : Block} {u k j i : Nat}
    (counted : (run.state (u + k)).dcnt.toNat = j)
    (content : (run.state (u + k)).kb[j]? = some (stored key i)) :
    (run.slots u k).word = roundKey key i := by
  rw [Run.slots, show u + 1 + k = u + k + 1 by omega, run.state_succ]
  simp only [step, prefetch, counted, content, Option.getD_some, unpack_stored]

/-- A load starts to count from one where `done` is clear, whatever the counter was. -/
theorem started_fresh (run : Run) {u : Nat} (fired : run.Fired u)
    (free : (run.state u).done = false) : Shows (.counting 1 (by decide)) (run.state (u + 1)) := by
  have loaded := shows_load (run.state u) (run.outside u) fired.1 fired.2
  simp only [free, Bool.false_eq_true, ↓reduceIte] at loaded
  exact loaded

/-- A load starts to count from zero where `done` is set, because the completion clears the
counter in the same clock. -/
theorem started_late (run : Run) {u : Nat} (fired : run.Fired u)
    (finished : (run.state u).done = true) :
    Shows (.counting 0 (by decide)) (run.state (u + 1)) := by
  have loaded := shows_load (run.state u) (run.outside u) fired.1 fired.2
  simp only [finished, ↓reduceIte] at loaded
  exact loaded

/-- Undisturbed, it counts on from one, so that the count in a clock is the number of the
slot it should read. -/
theorem counting_fresh (run : Run) {u j : Nat} (fired : run.Fired u)
    (free : (run.state u).done = false) (inside : 1 + j ≤ 12)
    (quiet : ∀ i, u < i → i < u + 1 + j → run.Quiet i) :
    Shows (.counting (1 + j) inside) (run.state (u + 1 + j)) :=
  shows_counting run (started_fresh run fired free) inside quiet

/-- Undisturbed, it counts on from zero, and reads each slot one clock later than it
should. -/
theorem counting_late (run : Run) {u j : Nat} (fired : run.Fired u)
    (finished : (run.state u).done = true) (inside : 0 + j ≤ 12)
    (quiet : ∀ i, u < i → i < u + 1 + j → run.Quiet i) :
    Shows (.counting (0 + j) inside) (run.state (u + 1 + j)) :=
  shows_counting run (started_late run fired finished) inside quiet

/-- Undisturbed, a load that counts from `first` completes when it has counted to twelve and
not before. -/
theorem done_counting (run : Run) {u first len : Nat} {inside : first ≤ 12}
    (started : Shows (.counting first inside) (run.state (u + 1))) (span : first + len = 13)
    (quiet : ∀ i, u < i → i < u + len → run.Quiet i) :
    (∀ n, u < n → n < u + len → (run.state n).done = false) ∧
      (run.state (u + len)).done = true := by
  have shows (j : Nat) (bounded : first + j ≤ 12) :
      Shows (.counting (first + j) bounded) (run.state (u + 1 + j)) :=
    shows_counting run started bounded fun i after before => quiet i (by omega) (by omega)
  constructor
  · intro n after before
    obtain ⟨j, rfl⟩ : ∃ j, n = u + 1 + j := ⟨n - u - 1, by omega⟩
    have early : ¬ first + j = 12 := by omega
    exact (shows j (by omega)).done.trans (decide_eq_false early)
  · obtain ⟨j, rfl⟩ : ∃ j, len = 1 + j := ⟨len - 1, by omega⟩
    have last : first + j = 12 := by omega
    rw [← Nat.add_assoc]
    exact (shows j (by omega)).done.trans (decide_eq_true last)

/-- Undisturbed, a load that finds `done` clear completes after twelve clocks and not
before. It counts from one. -/
theorem done_fresh (run : Run) {u : Nat} (fired : run.Fired u)
    (free : (run.state u).done = false) (quiet : ∀ i, u < i → i < u + 12 → run.Quiet i) :
    (∀ n, u < n → n < u + 12 → (run.state n).done = false) ∧
      (run.state (u + 12)).done = true :=
  done_counting run (started_fresh run fired free) rfl quiet

/-- Undisturbed, a load that finds `done` set completes after thirteen clocks and not
before. It counts from zero. -/
theorem done_late (run : Run) {u : Nat} (fired : run.Fired u)
    (finished : (run.state u).done = true) (quiet : ∀ i, u < i → i < u + 13 → run.Quiet i) :
    (∀ n, u < n → n < u + 13 → (run.state n).done = false) ∧
      (run.state (u + 13)).done = true :=
  done_counting run (started_late run fired finished) rfl quiet

/-- After a load that finds `done` clear, the data path receives slot `k` of the buffer as
it stands `k` clocks after the load. Slot zero is not among them, since it is read with the
load. -/
theorem slots_fresh (run : Run) {key : Block} {u k i : Nat} (fired : run.Fired u)
    (free : (run.state u).done = false) (quiet : ∀ i, u < i → i < u + 12 → run.Quiet i)
    (later : 1 ≤ k) (inside : k ≤ 10)
    (content : (run.state (u + k)).kb[k]? = some (stored key i)) :
    (run.slots u k).word = roundKey key i := by
  obtain ⟨j, rfl⟩ : ∃ j, k = 1 + j := ⟨k - 1, by omega⟩
  have shows := counting_fresh run fired free (j := j) (by omega) fun i after before =>
    quiet i after (by omega)
  exact slots_counted run (by rw [← Nat.add_assoc]; exact shows.dcnt) content

/-- After a load that finds `done` set, the data path receives slot `k` of the buffer one
clock later than it should. -/
theorem slots_late (run : Run) {key : Block} {u k i : Nat} (fired : run.Fired u)
    (finished : (run.state u).done = true) (quiet : ∀ i, u < i → i < u + 13 → run.Quiet i)
    (inside : k ≤ 10) (content : (run.state (u + (k + 1))).kb[k]? = some (stored key i)) :
    (run.slots u (k + 1)).word = roundKey key i := by
  have shows := counting_late run fired finished (j := k) (by omega) fun i after before =>
    quiet i after (by omega)
  have counted : (run.state (u + (k + 1))).dcnt.toNat = k := by
    rw [show u + (k + 1) = u + 1 + k by omega, shows.dcnt, Phase.dcnt, Nat.zero_add]
  exact slots_counted run counted content

/-- A decryption whose reads find the round keys of one key is the inverse cipher under that
key. The slots are read from zero up and hold the round keys from the last one down. -/
theorem inv_cipher_of_slots (run : Run) {key : Block} {u : Nat}
    (loaded : (run.inputs u).ld = true) (alone : ∀ i, u < i → i < u + 12 → run.Quiet i)
    (slots : ∀ k, k ≤ 10 → (run.slots u k).word = roundKey key (10 - k)) :
    (run.state (u + 12)).textOut = invCipher key (run.inputs u).textIn := by
  have text := text_out_after_load run 9 loaded fun i after before =>
    (alone i after (by omega)).2
  rw [show u + 12 = u + 3 + 9 by omega, text, invCipher]
  exact congrArg ofState (layers.decrypt_congr _ fun k inside => slots k inside)

/-- A load on an idle core decrypts with the key whose round keys its reads find. At count
zero the prefetch reads slot zero, so the first round key is right too. -/
theorem decrypts (run : Run) {key : Block} {u : Nat} (fired : run.Fired u)
    (rest : (run.state u).dcnt = 0x0#4) (free : (run.state u).done = false)
    (quiet : ∀ i, u < i → i < u + 12 → run.Quiet i)
    (complete : ∀ k, k ≤ 10 → Complete key (run.state (u + k))) :
    (run.state (u + 12)).textOut = invCipher key (run.inputs u).textIn := by
  refine inv_cipher_of_slots run fired.2 quiet fun k inside => ?_
  have content := complete k inside k inside
  cases k with
  | zero => exact slots_counted run (by rw [Nat.add_zero, rest]; rfl) content
  | succ k => exact slots_fresh run fired free quiet (by omega) inside content

/-- The timing window of a decryption. The key load at clock `t` needs eleven clocks
without reset; the load at clock `u` finds the core idle and comes twelve clocks after
the key load or later; no other key load occurs up to clock `u + 8`. Then `done`
rises after clock `u + 11` and not before, with the plaintext for the key and the
block that clocks `t` and `u` sampled, whatever the core held at the start and
whatever the unmentioned inputs carry. -/
theorem decryption_window (run : Run) {t u : Nat}
    (keyLoaded : (run.inputs t).rst = true ∧ (run.inputs t).kld = true)
    (keyRunning : ∀ i, t < i → i ≤ t + 11 → (run.inputs i).rst = true)
    (later : t + 12 ≤ u)
    (keyAlone : ∀ i, t < i → i ≤ u + 8 → (run.inputs i).kld = false)
    (rest : (run.state u).dcnt = 0x0#4) (free : (run.state u).done = false)
    (loaded : (run.inputs u).rst = true ∧ (run.inputs u).ld = true)
    (running : ∀ i, u < i → i ≤ u + 11 → (run.inputs i).rst = true ∧ (run.inputs i).ld = false) :
    (∀ n, u ≤ n → n ≤ u + 10 → (run.state (n + 1)).done = false) ∧
      (run.state (u + 12)).done = true ∧
      (run.state (u + 12)).textOut = invCipher (run.inputs t).key (run.inputs u).textIn := by
  have quiet : ∀ i, u < i → i < u + 12 → run.Quiet i := fun i after before =>
    running i after (by omega)
  obtain ⟨complete, closed⟩ := key_loaded run keyLoaded fun i after before =>
    ⟨keyRunning i after (by omega), keyAlone i after (by omega)⟩
  have none : ∀ i, t + 12 ≤ i → i ≤ u + 8 → ¬ run.KeyFired i := by
    rintro i after before ⟨_, fired⟩
    exact Bool.false_ne_true ((keyAlone i (by omega) before).symm.trans fired)
  obtain ⟨before, done⟩ := done_fresh run loaded free quiet
  refine ⟨fun n after inside => before (n + 1) (by omega) (by omega), done, ?_⟩
  exact decrypts run loaded rest free quiet fun k inside =>
    complete_held run (by omega) complete closed fun i after earlier => none i after (by omega)

/-- Two clocks of reset, a load of the zero key at clock 2, and loads of the zero block
at chosen clocks from clock 14 on, the first at which the key is in place. -/
def keyedRun (ld : Nat → Bool) : Run where
  start := default
  inputs n := ⟨decide (2 ≤ n), n == 2, decide (14 ≤ n) && ld n, 0#128, 0#128⟩
  outside _ := 0#128

/-- Before clock 14 the core is idle and holds the key, whatever loads are chosen from then
on. -/
theorem keyed_run_ready (ld : Nat → Bool) :
    Shows .idle ((keyedRun ld).state 14) ∧ Complete 0#128 ((keyedRun ld).state 14) ∧
      ((keyedRun ld).state 14).kbLd = false := by
  have reset : Shows .idle ((keyedRun ld).state 2) :=
    idle_after_reset (keyedRun ld) (m := 0) rfl rfl
  have loaded := key_loaded (keyedRun ld) (t := 2) ⟨rfl, rfl⟩ fun i after before =>
    ⟨decide_eq_true (Nat.le_of_lt after), beq_false_of_ne (Nat.ne_of_gt after)⟩
  refine ⟨idle_held (keyedRun ld) (by decide) reset fun i _ before => ?_, loaded⟩
  have early : ¬ 14 ≤ i := Nat.not_le_of_lt before
  simp [keyedRun, early]

/-- A load at clock 14 completes after clock 25, with the inverse cipher under the key that
was loaded at clock 2. -/
theorem decryption_window_single :
    ((keyedRun (· == 14)).state 26).done = true ∧
      ((keyedRun (· == 14)).state 26).textOut = invCipher 0#128 0#128 := by
  have idle := (keyed_run_ready (· == 14)).1
  have window := decryption_window (keyedRun (· == 14)) (t := 2) (u := 14) ⟨rfl, rfl⟩
    (fun i after _ => decide_eq_true (Nat.le_of_lt after)) (Nat.le_refl 14)
    (fun i after _ => beq_false_of_ne (Nat.ne_of_gt after))
    (BitVec.eq_of_toNat_eq idle.dcnt) idle.done ⟨rfl, rfl⟩
    (fun i after _ => ⟨decide_eq_true (by omega), by simp [keyedRun, Nat.ne_of_gt after]⟩)
  exact window.2

end AesCore.InvCipherTop
