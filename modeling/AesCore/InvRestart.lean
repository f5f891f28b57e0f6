import AesCore.InvCipherRun

/-!
# Restarting and aborting a decryption

The decryption core shares its load interface with the encryption core, which may be
loaded at any clock and gates `done` with `rst`. This module says when the decryption
core keeps to that.

A load on a busy core adds as first round key the word that the prefetch has already
read at the old count, and a load in the clock where `done` is set is moreover counted
from zero, so that an inverse round too many goes ahead. The operation still
completes; `RestartSound` is the exact condition under which its text is right.

A reset clears the counter but not `done`. An operation in its last count completes
in the reset clock itself, and only there: from any other state a reset is final, and
the next decryption may start at the clock after it.
-/

namespace AesCore.InvCipherTop

open Fips197
open StateRegisters

/-- One of the three control registers is set: an operation is in progress, or its
completion is being shown. -/
def Busy (s : Registers) : Prop := s.go = true ∨ s.dcnt ≠ 0x0#4 ∨ s.done = true

/-- The state `m` is the first one after clock `u` with `done` set. It is what a user who
waits for the answer sees. -/
structure Run.Rises (run : Run) (u m : Nat) : Prop where
  after : u < m
  done : (run.state m).done = true
  first : ∀ n, u < n → n < m → (run.state n).done = false

/-- The words that the prefetch reads in a state. A load takes them for the first round key,
whatever slot they come from. -/
def prefetched (s : Registers) (outside : Block) : Fin 4 → Word := (unpack (prefetch s outside)).word

/-- When a load of `text` yields the inverse cipher under `key`. With `done` clear the
prefetched words must be the last round key. With `done` set, one inverse round with
the last round key must lead from the prefetched words added to `text` to the last
round key added to `text`. -/
def RestartSound (key : Block) (s : Registers) (outside text : Block) : Prop :=
  if s.done then
    layers.unmix (layers.add (roundKey key 10)
      (layers.unsub (layers.add (prefetched s outside) (toState text)))) =
        layers.add (roundKey key 10) (toState text)
  else prefetched s outside = roundKey key 10

/-- The data path receives as slot zero what the prefetch reads at the load. The load itself
does not select a slot. -/
theorem slots_zero (run : Run) (u : Nat) :
    (run.slots u 0).word = prefetched (run.state u) (run.outside u) := rfl

/-- The first state with `done` set is the one in which the count reaches twelve, so it is
determined by where the count starts. -/
theorem rises_counting (run : Run) {u m first len : Nat} {inside : first ≤ 12}
    (started : Shows (.counting first inside) (run.state (u + 1))) (span : first + len = 13)
    (rises : run.Rises u m) (quiet : ∀ i, u < i → i < m → run.Quiet i) : m = u + len := by
  have after := rises.after
  rcases Nat.lt_trichotomy m (u + len) with early | equal | late
  · obtain ⟨j, rfl⟩ : ∃ j, m = u + 1 + j := ⟨m - u - 1, by omega⟩
    have shows := shows_counting run started (j := j) (by omega) quiet
    have count : first + j = 12 := of_decide_eq_true (shows.done.symm.trans rises.done)
    omega
  · exact equal
  · have done := (done_counting run started span fun i after before =>
      quiet i after (by omega)).2
    have clear := rises.first (u + len) (by omega) late
    exact absurd (clear.symm.trans done) Bool.false_ne_true

/-- A load that finds `done` clear completes twelve clocks later, from an idle core or a
busy one. -/
theorem rises_fresh (run : Run) {u m : Nat} (fired : run.Fired u)
    (free : (run.state u).done = false) (rises : run.Rises u m)
    (quiet : ∀ i, u < i → i < m → run.Quiet i) : m = u + 12 :=
  rises_counting run (started_fresh run fired free) rfl rises quiet

/-- A load that finds `done` set completes thirteen clocks later, since its count starts
from zero. -/
theorem rises_late (run : Run) {u m : Nat} (fired : run.Fired u)
    (finished : (run.state u).done = true) (rises : run.Rises u m)
    (quiet : ∀ i, u < i → i < m → run.Quiet i) : m = u + 13 :=
  rises_counting run (started_late run fired finished) rfl rises quiet

/-- The text of a load that finds `done` clear is right exactly when the prefetched
words are the last round key. -/
theorem restart_fresh (run : Run) {key : Block} {u : Nat} (fired : run.Fired u)
    (free : (run.state u).done = false) (quiet : ∀ i, u < i → i < u + 12 → run.Quiet i)
    (complete : ∀ k, 1 ≤ k → k ≤ 10 → Complete key (run.state (u + k))) :
    (run.state (u + 12)).textOut = invCipher key (run.inputs u).textIn ↔
      prefetched (run.state u) (run.outside u) = roundKey key 10 := by
  have text := text_out_after_load run 9 fired.2 fun i after before => (quiet i after (by omega)).2
  have slots : ∀ k, 1 ≤ k → k ≤ 9 + 1 → (run.slots u k).word = inverseKey key k :=
    fun k later inside => slots_fresh run fired free quiet later inside
      (complete k later inside k inside)
  rw [show u + 12 = u + 3 + 9 by omega, text, invCipher, of_state_injective.eq_iff,
    layers.decrypt_eq_iff slots, slots_zero]
  constructor
  · exact add_round_key_injective
  · intro same
    rw [same]
    rfl

/-- The text of a load that finds `done` set is right exactly when the additional
inverse round is undone by the stale words it starts from. -/
theorem restart_late (run : Run) {key : Block} {u : Nat} (fired : run.Fired u)
    (finished : (run.state u).done = true) (quiet : ∀ i, u < i → i < u + 13 → run.Quiet i)
    (complete : ∀ k, 1 ≤ k → k ≤ 11 → Complete key (run.state (u + k))) :
    (run.state (u + 13)).textOut = invCipher key (run.inputs u).textIn ↔
      layers.unmix (layers.add (roundKey key 10) (layers.unsub
        (layers.add (prefetched (run.state u) (run.outside u)) (toState (run.inputs u).textIn)))) =
        layers.add (roundKey key 10) (toState (run.inputs u).textIn) := by
  have text := text_out_after_load run 10 fired.2 fun i after before => (quiet i after (by omega)).2
  have slots : ∀ k, k ≤ 9 + 1 → (run.slots u (k + 1)).word = inverseKey key k :=
    fun k inside => slots_late run fired finished quiet inside
      (complete (k + 1) (by omega) (by omega) k inside)
  have first : (run.slots u 1).word = roundKey key 10 := slots 0 (by decide)
  rw [show u + 13 = u + 3 + 10 by omega, text, invCipher, of_state_injective.eq_iff,
    layers.decrypt_late_iff slots, KeyAlternating.Layers.backward, KeyAlternating.Layers.backward,
    slots_zero, first]
  rfl

/-- In a complete buffer the prefetch reads a round key, the last one at count zero. At
another count it is another one. -/
theorem prefetched_complete {key : Block} {s : Registers} (complete : Complete key s) {j : Nat}
    (counted : s.dcnt.toNat = j) (inside : j ≤ 10) (outside : Block) :
    prefetched s outside = roundKey key (10 - j) := by
  rw [prefetched, prefetch, counted, complete j inside, Option.getD_some, unpack_stored]

/-- Restarts, exactly. From one clock of reset on, let the buffer hold `key` before a
load at clock `u`, let no key load come between twelve clocks before it and its
completion, and let nothing disturb it. The text that accompanies the next `done` is
the inverse cipher of the block sampled at clock `u` if and only if `RestartSound` held
before that clock. -/
theorem restart_exact (run : Run) {u m : Nat} {key : Block}
    (cleared : (run.inputs 0).rst = false) (reachable : 0 < u)
    (complete : Complete key (run.state u))
    (loaded : (run.inputs u).rst = true ∧ (run.inputs u).ld = true) (rises : run.Rises u m)
    (undisturbed : ∀ i, u < i → i < m → (run.inputs i).rst = true ∧ (run.inputs i).ld = false)
    (keyAlone : ∀ i, u ≤ i + 12 → i < m → (run.inputs i).kld = false) :
    (run.state m).textOut = invCipher key (run.inputs u).textIn ↔
      RestartSound key (run.state u) (run.outside u) (run.inputs u).textIn := by
  have none : ∀ i, u ≤ i + 12 → i < m → ¬ run.KeyFired i := by
    rintro i after before ⟨_, fired⟩
    exact Bool.false_ne_true ((keyAlone i after before).symm.trans fired)
  have later := rises.after
  have closed := closed_of_quiet run cleared reachable fun i after before =>
    none i (by omega) (by omega)
  have held (k : Nat) (inside : u + k ≤ m) : Complete key (run.state (u + k)) :=
    complete_held run (by omega) complete closed fun i after before =>
      none i (by omega) (by omega)
  cases finished : (run.state u).done
  · obtain rfl := rises_fresh run loaded finished rises undisturbed
    simp only [RestartSound, finished, Bool.false_eq_true, ↓reduceIte]
    exact restart_fresh run loaded finished undisturbed fun k _ inside => held k (by omega)
  · obtain rfl := rises_late run loaded finished rises undisturbed
    simp only [RestartSound, finished, ↓reduceIte]
    exact restart_late run loaded finished undisturbed fun k _ inside => held k (by omega)

/-- A load in the clock after another one, at count one, with the key in place. -/
def restarted : Run := keyedRun fun n => n == 14 || n == 15

/-- The restarted operation finds the core at count one, and the buffer complete. -/
theorem restarted_state : Shows (.counting 1 (by decide)) (restarted.state 15) ∧
    Complete 0#128 (restarted.state 15) := by
  obtain ⟨idle, complete, closed⟩ := keyed_run_ready fun n => n == 14 || n == 15
  have shows := counting_fresh restarted (u := 14) (j := 0) ⟨rfl, rfl⟩ idle.done (by decide)
    fun i after before => by omega
  have held := complete_held restarted (n := 15) (by decide) complete closed fun i after before =>
    by omega
  exact ⟨shows, held⟩

/-- Nothing disturbs the restarted operation, and it completes after clock 26, twelve clocks
after its load. -/
theorem restarted_rises : (∀ i, 15 < i → i < 27 → restarted.Quiet i) ∧ restarted.Rises 15 27 := by
  have quiet : ∀ i, 15 < i → i < 27 → restarted.Quiet i := by
    intro i after _
    refine ⟨decide_eq_true (by omega), ?_⟩
    simp [restarted, keyedRun, Nat.ne_of_gt after, show i ≠ 14 by omega]
  obtain ⟨before, done⟩ := done_fresh restarted (u := 15) ⟨rfl, rfl⟩ restarted_state.1.done quiet
  exact ⟨quiet, by decide, done, before⟩

/-- No key load comes near it: the only one is complete before the first load. -/
theorem restarted_key_alone (i : Nat) (near : 15 ≤ i + 12) : (restarted.inputs i).kld = false :=
  beq_false_of_ne (by omega)

/-- The restarted operation falls under the law for restarts, so its text is right exactly
if the words it found were. -/
theorem restart_exact_restarted :
    (restarted.state 27).textOut = invCipher 0#128 0#128 ↔
      RestartSound 0#128 (restarted.state 15) 0#128 0#128 :=
  restart_exact restarted rfl (by decide) restarted_state.2 ⟨rfl, rfl⟩ restarted_rises.2
    restarted_rises.1 fun i near _ => restarted_key_alone i near

/-- A load at clock 15 on a core at count one, with the key in place and nothing to
disturb it, completes with a wrong text: its first round key is the last but one. -/
theorem restart_wrong :
    ((restarted.inputs 0).rst = false ∧ (restarted.inputs 1).rst = false) ∧
      Complete 0#128 (restarted.state 15) ∧ Busy (restarted.state 15) ∧
      ((restarted.inputs 15).rst = true ∧ (restarted.inputs 15).ld = true) ∧
      restarted.Rises 15 27 ∧ (∀ i, 15 < i → i < 27 → restarted.Quiet i) ∧
      (∀ i, 15 ≤ i + 12 → i < 27 → (restarted.inputs i).kld = false) ∧
      (restarted.state 27).textOut ≠ invCipher 0#128 (restarted.inputs 15).textIn := by
  obtain ⟨shows, complete⟩ := restarted_state
  obtain ⟨quiet, rises⟩ := restarted_rises
  refine ⟨⟨rfl, rfl⟩, complete, Or.inl shows.go, ⟨rfl, rfl⟩, rises, quiet,
    fun i near _ => restarted_key_alone i near, fun same => ?_⟩
  have sound := (restart_fresh restarted (u := 15) ⟨rfl, rfl⟩ shows.done quiet fun k _ inside =>
    complete_held restarted (by omega) complete ?_ fun i after before fired => ?_).mp same
  · rw [prefetched_complete complete shows.dcnt (by decide)] at sound
    have words : roundKey 0#128 9 0 ≠ roundKey 0#128 10 0 := by decide +kernel
    exact words (congrFun sound 0)
  · exact closed_of_quiet restarted (m := 0) rfl (by decide) fun i near before fired =>
      Bool.false_ne_true ((restarted_key_alone i (by omega)).symm.trans fired.2)
  · exact Bool.false_ne_true ((restarted_key_alone i (by omega)).symm.trans fired.2)

/-- An operation that has counted to `k` was loaded at least `k` clocks ago, from one or
from zero. -/
theorem counted_old (run : Run) {first n k : Nat} (counted : run.Counted first n k) :
    ∃ m, first ≤ m ∧ run.Fired m ∧ m + k ≤ n := by
  obtain ⟨m, from', fired, _, ⟨_, _, rfl⟩ | ⟨_, rfl⟩⟩ := counted
  · exact ⟨m, from', fired, Nat.le_refl _⟩
  · exact ⟨m, from', fired, by omega⟩

/-- What a reset at clock `n` is for: it takes `done` away, nothing brings it back but
a later load, and the next clock may load again. -/
structure Run.Aborts (run : Run) (n : Nat) : Prop where
  now : (run.state (n + 1)).done = false
  later : ∀ k, n + 1 < k → (run.state k).done = true →
    ∃ m, n < m ∧ ((run.inputs m).rst = true ∧ (run.inputs m).ld = true) ∧ m + 11 < k
  again : ∀ key, ((run.inputs (n + 1)).rst = true ∧ (run.inputs (n + 1)).ld = true) →
    (∀ i, n + 1 < i → i ≤ n + 12 → (run.inputs i).rst = true ∧ (run.inputs i).ld = false) →
    (∀ i, n ≤ i + 11 → i ≤ n + 9 → (run.inputs i).kld = false) →
    Complete key (run.state n) →
    (run.state (n + 13)).done = true ∧
      (run.state (n + 13)).textOut = invCipher key (run.inputs (n + 1)).textIn

/-- A reset leaves the core idle unless it meets count eleven without a load. Only then does
`done` rise in the same clock. -/
theorem idle_of_reset (run : Run) {n : Nat} (cleared : (run.inputs n).rst = false)
    (early : ¬ ((run.state n).dcnt.toNat = 11 ∧ (run.inputs n).ld = false)) :
    Shows .idle (run.state (n + 1)) := by
  rw [run.state_succ]
  exact ⟨by simp [step_dcnt, cleared], by simp [step_go, cleared],
    by simpa [step_done] using early⟩

/-- Aborts, exactly. From one clock of reset on, a reset at clock `n` does all that it
is for if and only if it does not meet an operation in its last count, at eleven and
without a load. -/
theorem reset_aborts_iff (run : Run) {n : Nat} (cleared : (run.inputs 0).rst = false)
    (reachable : 0 < n) (reset : (run.inputs n).rst = false) :
    run.Aborts n ↔ ¬ ((run.state n).dcnt.toNat = 11 ∧ (run.inputs n).ld = false) := by
  constructor
  · rintro ⟨now, _, _⟩ ⟨last, unloaded⟩
    rw [run.state_succ, step_done, last, unloaded] at now
    exact absurd now (by decide)
  · intro early
    have idle := idle_of_reset run reset early
    refine ⟨idle.done, fun k after done => ?_, fun key loaded undisturbed keyAlone complete => ?_⟩
    · rcases origin_of_done run idle (Nat.le_of_lt after) done with
        counted | ⟨i, rfl, _, counted⟩
      · obtain ⟨m, from', fired, bound⟩ := counted_old run counted
        exact ⟨m, from', fired, by omega⟩
      · obtain ⟨m, from', fired, bound⟩ := counted_old run counted
        exact ⟨m, from', fired, by omega⟩
    · have none : ∀ i, n ≤ i + 11 → i ≤ n + 9 → ¬ run.KeyFired i := by
        rintro i after before ⟨_, fired⟩
        exact Bool.false_ne_true ((keyAlone i after before).symm.trans fired)
      have closed := closed_of_quiet run cleared reachable fun i after before =>
        none i after (by omega)
      have quiet : ∀ i, n + 1 < i → i < n + 1 + 12 → run.Quiet i := fun i after before =>
        undisturbed i after (by omega)
      refine ⟨(done_fresh run loaded idle.done quiet).2, ?_⟩
      exact decrypts run loaded (BitVec.eq_of_toNat_eq idle.dcnt) idle.done quiet fun k inside =>
        complete_held run (by omega) complete closed fun i after before =>
          none i (by omega) (by omega)

/-- Two clocks of reset, a load at clock 2, and a reset at a later clock, which is a
parameter. -/
def cutRun (clock : Nat) : Run where
  start := default
  inputs n := ⟨decide (2 ≤ n) && n != clock, false, n == 2, 0#128, 0#128⟩
  outside _ := 0#128

/-- Up to that reset, the operation counts, from one in the clock after its load. -/
theorem cut_run_counting (clock : Nat) {j : Nat} (later : 3 + j ≤ clock) (inside : 1 + j ≤ 12) :
    Shows (.counting (1 + j) inside) ((cutRun clock).state (3 + j)) := by
  have idle := idle_after_reset (cutRun clock) (m := 0) rfl rfl
  have running (i : Nat) (from' : 2 ≤ i) (before : i < clock) :
      ((cutRun clock).inputs i).rst = true := by
    simp [cutRun, from', Nat.ne_of_lt before]
  exact counting_fresh (cutRun clock) (u := 2) ⟨running 2 (by decide) (by omega), rfl⟩ idle.done
    inside fun i after before =>
      ⟨running i (by omega) (by omega), beq_false_of_ne (Nat.ne_of_gt after)⟩

/-- A reset at count ten aborts: nothing is reported, and the next clock may load again. -/
theorem reset_aborts_iff_count_ten : (cutRun 12).Aborts 12 := by
  have counted := (cut_run_counting 12 (j := 9) (by decide) (by decide)).dcnt
  exact (reset_aborts_iff (cutRun 12) rfl (by decide) rfl).mpr fun last =>
    absurd (counted.symm.trans last.1) (by decide)

/-- A reset at count eleven is answered with `done`, in the state right after it. -/
theorem reset_answered :
    (((cutRun 13).inputs 0).rst = false ∧ ((cutRun 13).inputs 1).rst = false) ∧
      ((cutRun 13).inputs 13).rst = false ∧ ((cutRun 13).state 14).done = true := by
  have counted : ((cutRun 13).state 13).dcnt.toNat = 11 :=
    (cut_run_counting 13 (j := 10) (by decide) (by decide)).dcnt
  refine ⟨⟨rfl, rfl⟩, rfl, ?_⟩
  rw [Run.state_succ, step_done, counted]
  rfl

end AesCore.InvCipherTop
