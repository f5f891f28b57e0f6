import AesCore.InvCipherRun

/-!
# When the decryption core reports

Two bits of the core report that something has ended. `done` reports a decryption:
over arbitrary runs it rises exactly eleven or twelve clocks after a load that
nothing disturbed meanwhile, and whether it is eleven or twelve depends on whether
that load met an earlier completion. `kdone` reports a key load, and no port of the
core carries it. It rises exactly where the buffer has just received its last round
key, so a user who could see it would need nothing else to know that the key is in
place.

Both laws read the counters as distances to a load. The one direction is the origin
of a phase, the other that an undisturbed load counts.
-/

namespace AesCore.InvCipherTop

open Fips197

/-- What the counter says about the past is what it shows. This is the converse of the
origin of a phase. -/
theorem shows_counted (run : Run) {first n k : Nat} (bounded : k ≤ 12)
    (counted : run.Counted first n k) : Shows (.counting k bounded) (run.state n) := by
  obtain ⟨u, _, fired, stretch, ⟨free, one, rfl⟩ | ⟨finished, rfl⟩⟩ := counted
  · obtain ⟨j, rfl⟩ : ∃ j, k = 1 + j := ⟨k - 1, by omega⟩
    rw [← Nat.add_assoc] at stretch ⊢
    exact counting_fresh run fired free bounded stretch
  · have shows := counting_late run fired finished (j := k) (by omega) stretch
    simpa only [Nat.zero_add] using shows

/-- Past zero, the counter stands where an undisturbed load has brought it, and such a load
is the only way to get there. -/
theorem dcnt_iff_counted (run : Run) {first n k : Nat} (idle : Shows .idle (run.state first))
    (later : first ≤ n) (positive : 1 ≤ k) (bounded : k ≤ 12) :
    (run.state n).dcnt.toNat = k ↔ run.Counted first n k := by
  constructor
  · intro count
    obtain ⟨phase, shows, origin⟩ := origin_run run idle n later
    have same := shows.dcnt.symm.trans count
    cases phase with
    | idle => exact absurd same (by simp; omega)
    | stale => exact absurd same (by simp; omega)
    | counting j inside =>
      obtain rfl : j = k := same
      exact origin
  · intro counted
    exact (shows_counted run bounded counted).dcnt

/-- After two clocks of reset, a completion comes from count eleven and a clock that does
not load. -/
theorem done_iff_counted (run : Run) (cleared : (run.inputs 0).rst = false)
    (again : (run.inputs 1).rst = false) {n : Nat} (later : 2 ≤ n) :
    (run.state (n + 1)).done = true ↔ run.Counted 2 n 11 ∧ (run.inputs n).ld = false := by
  have counts := dcnt_iff_counted run (idle_after_reset run (m := 0) cleared again) later
    (k := 11) (by decide) (by decide)
  rw [← counts, run.state_succ, step_done, Bool.and_eq_true, decide_eq_true_iff, Bool.not_eq_true']

/-- The law of `done`. After two clocks of reset the core reports completion after clock
`n` if and only if that clock does not load and a load lies eleven clocks back, or twelve
where it met a completion, with neither load nor reset in between. A reset at clock `n`
itself makes no difference. -/
theorem done_law (run : Run) (cleared : (run.inputs 0).rst = false)
    (again : (run.inputs 1).rst = false) {n : Nat} (later : 2 ≤ n) :
    (run.state (n + 1)).done = true ↔ (run.inputs n).ld = false ∧
      ∃ u, 2 ≤ u ∧ run.Fired u ∧ (∀ i, u < i → i < n → run.Quiet i) ∧
        ((run.state u).done = false ∧ n = u + 11 ∨ (run.state u).done = true ∧ n = u + 12) := by
  rw [done_iff_counted run cleared again later, and_comm]
  refine and_congr_right fun _ => exists_congr fun u => ?_
  simp only [Nat.reduceLeDiff, true_and]

/-- A load at clock 14, when the key is in place, and one in the clock that shows its
completion. -/
def repeatedRun : Run := keyedRun fun n => n == 14 || n == 26

/-- Between its loads and after them nothing disturbs this run, neither a reset nor another
load. -/
theorem repeated_quiet {i : Nat} (running : 2 ≤ i) (first : i ≠ 14) (second : i ≠ 26) :
    repeatedRun.Quiet i := by
  constructor
  · exact decide_eq_true running
  · simp [repeatedRun, keyedRun, first, second]

/-- The first load completes after clock 25, the second one a clock late after clock 38. So
they are thirteen clocks apart. -/
theorem repeated_done : (repeatedRun.state 14).done = false ∧ (repeatedRun.state 26).done = true ∧
    (repeatedRun.state 39).done = true := by
  have free : (repeatedRun.state 14).done = false := (keyed_run_ready _).1.done
  have first := (done_fresh repeatedRun (u := 14) ⟨rfl, rfl⟩ free fun i after before =>
    repeated_quiet (by omega) (by omega) (by omega)).2
  have second := (done_late repeatedRun (u := 26) ⟨rfl, rfl⟩ first fun i after before =>
    repeated_quiet (by omega) (by omega) (by omega)).2
  exact ⟨free, first, second⟩

/-- The law finds both completions from the loads, and the second one in its late case. -/
theorem done_law_repeated :
    (repeatedRun.state 26).done = true ∧ (repeatedRun.state 39).done = true := by
  obtain ⟨free, finished, _⟩ := repeated_done
  have quiet (n : Nat) (running : 2 ≤ n) (apart : n ≠ 14 ∧ n ≠ 26) :=
    repeated_quiet running apart.1 apart.2
  have first := (done_law repeatedRun rfl rfl (n := 25) (by decide)).mpr
    ⟨(quiet 25 (by decide) (by decide)).2, 14, by decide, ⟨rfl, rfl⟩,
      fun i after before => quiet i (by omega) (by omega), Or.inl ⟨free, rfl⟩⟩
  have second := (done_law repeatedRun rfl rfl (n := 38) (by decide)).mpr
    ⟨(quiet 38 (by decide) (by decide)).2, 26, by decide, ⟨rfl, rfl⟩,
      fun i after before => quiet i (by omega) (by omega), Or.inr ⟨finished, rfl⟩⟩
  exact ⟨first, second⟩

/-- Before it completes, an undisturbed load that counts from `first` shows no completion. -/
theorem undone_counting (run : Run) {u n k : Nat} {inside : k ≤ 12}
    (started : Shows (.counting k inside) (run.state (u + 1))) (after : u < n)
    (early : n + k < u + 13) (quiet : ∀ i, u < i → i < n → run.Quiet i) :
    (run.state n).done = false := by
  obtain ⟨j, rfl⟩ : ∃ j, n = u + 1 + j := ⟨n - u - 1, by omega⟩
  have shows := shows_counting run started (j := j) (by omega) fun i after before =>
    quiet i after before
  exact shows.done.trans (decide_eq_false (by omega))

/-- Two completions are at least thirteen clocks apart, whatever is loaded or reset between
them. The second one needs a load after the first, or in its clock, where it takes a clock
longer. -/
theorem completions_apart (run : Run) (cleared : (run.inputs 0).rst = false)
    (again : (run.inputs 1).rst = false) {n m : Nat} (later : 2 ≤ n) (ordered : n < m)
    (first : (run.state n).done = true) (second : (run.state m).done = true) : n + 13 ≤ m := by
  obtain ⟨m, rfl⟩ : ∃ p, m = p + 1 := ⟨m - 1, by omega⟩
  obtain ⟨⟨u, _, fired, stretch, started⟩, _⟩ :=
    (done_iff_counted run cleared again (n := m) (by omega)).mp second
  rcases started with ⟨free, _, rfl⟩ | ⟨finished, rfl⟩
  · rcases Nat.lt_trichotomy u n with before | rfl | after
    · have undone := undone_counting run (started_fresh run fired free) before (by omega)
        fun i after earlier => stretch i after (by omega)
      exact absurd (undone.symm.trans first) Bool.false_ne_true
    · exact absurd (free.symm.trans first) Bool.false_ne_true
    · omega
  · rcases Nat.lt_or_ge u n with before | after
    · have undone := undone_counting run (started_late run fired finished) before (by omega)
        fun i after earlier => stretch i after (by omega)
      exact absurd (undone.symm.trans first) Bool.false_ne_true
    · omega

/-- Its two completions are as close as two completions can be, thirteen clocks. -/
theorem completions_apart_repeated :
    (repeatedRun.state 26).done = true ∧ (repeatedRun.state 39).done = true ∧ 26 + 13 ≤ 39 :=
  ⟨repeated_done.2.1, repeated_done.2.2,
    completions_apart repeatedRun rfl rfl (by decide) (by decide) repeated_done.2.1
      repeated_done.2.2⟩

/-!
## The key buffer reports completion
-/

/-- A closed buffer does not stand at its last slot: the counter rests at ten after a reset
and at fifteen after a load. So a counter at zero tells of a load in progress. -/
theorem kcnt_of_closed (run : Run) {m : Nat} (cleared : (run.inputs m).rst = false) :
    ∀ n, m + 1 ≤ n → (run.state n).kbLd = false → (run.state n).kcnt ≠ 0x0#4 := by
  have base : (run.state (m + 1)).kbLd = false → (run.state (m + 1)).kcnt ≠ 0x0#4 := by
    rw [run.state_succ]
    simp [step, cleared]
  refine Clocked.run_invariant (fun _ (s : Registers) => s.kbLd = false → s.kcnt ≠ 0x0#4) base ?_
  intro n s later closed shut
  cases running : (run.inputs n).rst
  · simp [step, running]
  · cases loaded : (run.inputs n).kld
    · by_cases last : s.kcnt = 0x0#4
      · have opened : s.kbLd = true := by
          by_contra shut
          exact closed (Bool.eq_false_iff.mpr shut) last
        simp [step, running, loaded, last, opened]
      · have still : s.kbLd = false := by simpa [step, running, loaded, last] using shut
        simpa [step, running, loaded, still] using last
    · simp [step, running, loaded] at shut

/-- The counter of the buffer stands at zero exactly where the latest load lies ten quiet
clocks back, in the clock of its last write. -/
theorem kcnt_zero_iff (run : Run) (cleared : (run.inputs 0).rst = false) {n : Nat}
    (later : 0 < n) : (run.state n).kcnt = 0x0#4 ↔
      ∃ t, n = t + 11 ∧ run.KeyFired t ∧ ∀ i, t < i → i < n → run.KeyQuiet i := by
  constructor
  · intro zero
    have opened : (run.state n).kbLd = true := by
      by_contra shut
      exact kcnt_of_closed run cleared n later (Bool.eq_false_iff.mpr shut) zero
    obtain ⟨k, inside, since⟩ := open_since run cleared n later opened
    obtain ⟨t, rfl, fired, quiet⟩ := Clocked.since_iff.mp since
    have position := ((loading_run run fired (by omega) quiet).position inside).1
    rw [zero] at position
    have last : 10 - k = 0 := position.symm
    exact ⟨t, by omega, fired, quiet⟩
  · rintro ⟨t, rfl, fired, quiet⟩
    have loading := loading_run run (k := 10) fired (by decide) quiet
    exact BitVec.eq_of_toNat_eq (loading.position (Nat.le_refl 10)).1

/-- The eleventh clock of a load completes the buffer and closes it unless it starts
another load. A reset in that clock comes too late to stop the last write. -/
theorem complete_of_last (run : Run) {t : Nat} (fired : run.KeyFired t)
    (quiet : ∀ i, t < i → i < t + 11 → run.KeyQuiet i) (idle : (run.inputs (t + 11)).kld = false) :
    Complete (run.inputs t).key (run.state (t + 12)) ∧ (run.state (t + 12)).kbLd = false := by
  have loading := loading_run run (k := 10) fired (by decide) quiet
  have count : (run.state (t + 11)).kcnt = 0x0#4 :=
    BitVec.eq_of_toNat_eq (loading.position (Nat.le_refl 10)).1
  constructor
  · intro j inside
    by_cases last : j = 0
    · subst last
      exact slot_written loading (Nat.le_refl 10) _ _
    · have written := loading.written (10 - j) (by omega) (by omega)
      rw [show 10 - (10 - j) = j by omega] at written
      rw [run.state_succ (t + 11), slot_held fun _ => by rw [count]; exact Ne.symm last]
      exact written
  · rw [run.state_succ (t + 11)]
    cases running : (run.inputs (t + 11)).rst
    · simp [step, running]
    · simp [step, running, idle, count]

/-- The bit `kdone` looks at the counter and at `kld`. It does not look at the reset, nor at
the bit that says whether the buffer is open. -/
theorem kdone_iff (run : Run) (n : Nat) : (run.state (n + 1)).kdone = true ↔
    (run.state n).kcnt = 0x0#4 ∧ (run.inputs n).kld = false := by
  rw [run.state_succ]
  simp [step]

/-- The law of `kdone`. It rises after a clock without `kld` that lies eleven clocks after
a load, with neither another load nor a reset strictly between, and then the buffer is
closed and holds the round keys of that load. -/
theorem kdone_law (run : Run) (cleared : (run.inputs 0).rst = false) {n : Nat} (later : 0 < n) :
    ((run.state (n + 1)).kdone = true ↔
      ∃ t, n = t + 11 ∧ run.KeyFired t ∧ (∀ i, t < i → i < n → run.KeyQuiet i) ∧
        (run.inputs n).kld = false) ∧
    ((run.state (n + 1)).kdone = true →
      (run.state (n + 1)).kbLd = false ∧ Complete (run.inputs (n - 11)).key (run.state (n + 1))) := by
  rw [kdone_iff, kcnt_zero_iff run cleared later]
  constructor
  · constructor
    · rintro ⟨⟨t, same, fired, quiet⟩, idle⟩
      exact ⟨t, same, fired, quiet, idle⟩
    · rintro ⟨t, same, fired, quiet, idle⟩
      exact ⟨⟨t, same, fired, quiet⟩, idle⟩
  · rintro ⟨⟨t, rfl, fired, quiet⟩, idle⟩
    obtain ⟨complete, closed⟩ := complete_of_last run fired quiet idle
    exact ⟨closed, complete⟩

/-- In a keyed run the load of clock 2 is quiet, and it is the only one, whatever loads of a
text are chosen. -/
theorem keyed_run_key_quiet (ld : Nat → Bool) {i : Nat} (after : 2 < i) :
    (keyedRun ld).KeyQuiet i :=
  ⟨decide_eq_true (Nat.le_of_lt after), beq_false_of_ne (Nat.ne_of_gt after)⟩

/-- The key of clock 2 is reported after clock 13, when all its round keys are in the
buffer. -/
theorem kdone_law_keyed :
    ((keyedRun (· == 14)).state 14).kdone = true ∧
      Complete 0#128 ((keyedRun (· == 14)).state 14) := by
  have law := kdone_law (keyedRun (· == 14)) rfl (n := 13) (by decide)
  have reported := law.1.mpr ⟨2, rfl, ⟨rfl, rfl⟩,
    fun i after _ => keyed_run_key_quiet _ after, rfl⟩
  exact ⟨reported, (law.2 reported).2⟩

/-- Waiting for `kdone` is enough. A load on an idle core in the state that shows `kdone` or
later decrypts with the key of the load that `kdone` reported, as long as nothing disturbs
the decryption and no key load starts before its last slot has been read. -/
theorem kdone_handshake (run : Run) (cleared : (run.inputs 0).rst = false) {n u : Nat}
    (later : 0 < n) (ready : (run.state (n + 1)).kdone = true) (after : n + 1 ≤ u)
    (rest : (run.state u).dcnt = 0x0#4) (free : (run.state u).done = false)
    (fired : run.Fired u) (quiet : ∀ i, u < i → i < u + 12 → run.Quiet i)
    (held : ∀ i, n + 1 ≤ i → i ≤ u + 8 → ¬ run.KeyFired i) :
    (run.state (u + 12)).done = true ∧
      (run.state (u + 12)).textOut = invCipher (run.inputs (n - 11)).key (run.inputs u).textIn := by
  obtain ⟨count, idle⟩ := (kdone_iff run n).mp ready
  obtain ⟨t, rfl, keyFired, keyQuiet⟩ := (kcnt_zero_iff run cleared later).mp count
  obtain ⟨complete, closed⟩ := complete_of_last run keyFired keyQuiet idle
  refine ⟨(done_fresh run fired free quiet).2, ?_⟩
  rw [Nat.add_sub_cancel]
  exact decrypts run fired rest free quiet fun k inside =>
    complete_held run (by omega) complete closed fun i from' before => held i from' (by omega)

/-- The load at clock 14 comes as early as `kdone` allows, and decrypts with the key. -/
theorem kdone_handshake_keyed :
    ((keyedRun (· == 14)).state 26).done = true ∧
      ((keyedRun (· == 14)).state 26).textOut = invCipher 0#128 0#128 := by
  have idle := (keyed_run_ready (· == 14)).1
  have fired : (keyedRun (· == 14)).KeyFired 2 := ⟨rfl, rfl⟩
  have count := (kcnt_zero_iff (keyedRun (· == 14)) rfl (n := 13) (by decide)).mpr
    ⟨2, rfl, fired, fun i after _ => keyed_run_key_quiet _ after⟩
  have ready := (kdone_iff (keyedRun (· == 14)) 13).mpr ⟨count, rfl⟩
  refine kdone_handshake (keyedRun (· == 14)) rfl (n := 13) (u := 14) (by decide) ready
    (Nat.le_refl 14) (BitVec.eq_of_toNat_eq idle.dcnt) idle.done ⟨rfl, rfl⟩ ?_ ?_
  · intro i after _
    exact ⟨decide_eq_true (by omega), by simp [keyedRun, Nat.ne_of_gt after]⟩
  · rintro i from' _ ⟨_, again⟩
    exact Bool.false_ne_true ((keyed_run_key_quiet _ (by omega)).2.symm.trans again)

end AesCore.InvCipherTop
