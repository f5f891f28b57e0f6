import AesCore.InvCipherRun

/-!
# A key load during a decryption

The writer of the key buffer runs from slot 10 down and the reader from slot 0 up, and
nothing keeps them apart: `kdone` is computed and connected to nothing. A decryption
may therefore read some slots before a key load rewrites them and others after it.

`LastWriter` names, for each slot, the key load whose round key the reader finds. The
result of a decryption is the inverse cipher with exactly these round keys, one from
each of eleven possibly different schedules. It is the inverse cipher under a single
key where the writers presented the same key, which is certain if no key load starts
from eleven clocks before the load up to eight clocks after it.
-/

namespace AesCore.InvCipherTop

open Fips197
open StateRegisters

/-- The key load of clock `v` gets as far as slot `j`, which it writes in clock
`v + 11 - j`. Another key load in that clock comes too late to prevent it. -/
def Run.Reaches (run : Run) (v j : Nat) : Prop :=
  run.KeyFired v ∧ ∀ i, v < i → i < v + 11 - j → run.KeyQuiet i

/-- Before clock `n`, the last key load to have written slot `j` is that of clock `v`. Later
loads may have started, but none of them has reached the slot by then. -/
structure Run.LastWriter (run : Run) (n j v : Nat) : Prop where
  reaches : run.Reaches v j
  before : v + 11 - j < n
  last : ∀ w, run.Reaches w j → w + 11 - j < n → w ≤ v

/-- A slot holds the round key of its last writer. In any clock that writes the slot
later, the buffer is open for a load that reaches the slot, and that load would be a
later writer. -/
theorem slot_of_last_writer (run : Run) {m n j v : Nat} (cleared : (run.inputs m).rst = false)
    (later : m < v) (inside : j ≤ 10) (writer : run.LastWriter n j v) :
    (run.state n).kb[j]? = some (stored (run.inputs v).key (10 - j)) := by
  obtain ⟨⟨fired, quiet⟩, before, last⟩ := writer
  have loading := loading_run run fired (k := 10 - j) (by omega) fun i after earlier =>
    quiet i after (by omega)
  have content := slot_written loading (by omega) (run.inputs (v + 1 + (10 - j)))
    (run.outside (v + 1 + (10 - j)))
  rw [show 10 - (10 - j) = j by omega] at content
  have held : (run.state n).kb[j]? = (run.state (v + 1 + (10 - j) + 1)).kb[j]? := by
    refine Clocked.run_held (fun s : Registers => s.kb[j]?) (by omega) fun i after earlier => ?_
    refine slot_held (fun opened here => ?_) _ _
    obtain ⟨k, small, since⟩ := open_since run cleared i (by omega) opened
    obtain ⟨w, rfl, again, undisturbed⟩ := Clocked.since_iff.mp since
    have position := ((loading_run run again (by omega) undisturbed).position small).1
    have count : k = 10 - j := by
      have same : 10 - k = j := position.symm.trans here
      omega
    subst count
    have newer := last w ⟨again, fun i after earlier => undisturbed i after (by omega)⟩ (by omega)
    omega
  exact held.trans content

/-- Reset for at least two clocks and never again, and loads on an idle core only. Key loads
may come at any time, and any number of them. -/
structure Run.Interleaved (run : Run) (first : Nat) : Prop where
  two : 2 ≤ first
  reset : ∀ n, (run.inputs n).rst = decide (first ≤ n)
  hits : ∀ n, first ≤ n → (run.inputs n).ld = true →
    (run.state n).dcnt = 0x0#4 ∧ (run.state n).done = false

section Interleaved
variable {run : Run} {first u : Nat}

/-- The reset ends at `first`, and no operation is cut off by another one. -/
theorem Run.Interleaved.rst_true (interleaved : run.Interleaved first) {n : Nat}
    (later : first ≤ n) : (run.inputs n).rst = true :=
  (interleaved.reset n).trans (decide_eq_true later)

/-- A key load comes after it, since none is accepted in a reset. -/
theorem first_le_fired (interleaved : run.Interleaved first) {v : Nat} (fired : run.KeyFired v) :
    first ≤ v :=
  of_decide_eq_true ((interleaved.reset v).symm.trans fired.1)

/-- No load falls into an operation, because the counter is not zero there. The induction is
over the clocks of the operation: as long as it was undisturbed, the counter is known. -/
theorem quiet_of_interleaved (interleaved : run.Interleaved first) (later : first ≤ u)
    (loaded : (run.inputs u).ld = true) : ∀ i, u < i → i < u + 12 → run.Quiet i := by
  have free := (interleaved.hits u later loaded).2
  have stretch : ∀ j, j ≤ 11 → ∀ i, u < i → i < u + 1 + j → run.Quiet i := by
    intro j
    induction j with
    | zero => exact fun _ i after before => by omega
    | succ j inductionHypothesis =>
      intro inside i after before
      have earlier := inductionHypothesis (by omega)
      by_cases now : i = u + 1 + j
      · subst now
        have shows := counting_fresh run ⟨interleaved.rst_true later, loaded⟩ free (j := j)
          (by omega) earlier
        refine ⟨interleaved.rst_true (by omega), Bool.eq_false_iff.mpr fun again => ?_⟩
        have zero := congrArg BitVec.toNat (interleaved.hits _ (by omega) again).1
        have count : 1 + j = 0 := shows.dcnt.symm.trans zero
        omega
      · exact earlier i after (by omega)
  intro i after before
  exact stretch 11 (Nat.le_refl 11) i after (by omega)

/-- The reader finds, in each slot, the round key of the slot's last writer. It reads slot
`j` in the clock `u + j`, so the last writer before that clock matters. -/
theorem slots_of_last_writers (interleaved : run.Interleaved first) (later : first ≤ u)
    (loaded : (run.inputs u).ld = true) {j v : Nat} (inside : j ≤ 10)
    (writer : run.LastWriter (u + j) j v) :
    (run.slots u j).word = roundKey (run.inputs v).key (10 - j) := by
  have two := interleaved.two
  have from' := first_le_fired interleaved writer.reaches.1
  have cleared : (run.inputs 0).rst = false :=
    (interleaved.reset 0).trans (decide_eq_false (by omega))
  have content := slot_of_last_writer run cleared (by omega) inside writer
  obtain ⟨rest, free⟩ := interleaved.hits u later loaded
  cases j with
  | zero => exact slots_counted run (by rw [Nat.add_zero, rest]; rfl) content
  | succ j =>
    exact slots_fresh run ⟨interleaved.rst_true later, loaded⟩ free
      (quiet_of_interleaved interleaved later loaded) (by omega) inside content

/-- The text is the inverse cipher with the round keys of the last writers, which may belong
to eleven different keys. -/
theorem text_of_last_writers (interleaved : run.Interleaved first) (later : first ≤ u)
    (loaded : (run.inputs u).ld = true) {v : Nat → Nat}
    (writers : ∀ j, j ≤ 10 → run.LastWriter (u + j) j (v j)) :
    (run.state (u + 12)).textOut =
      ofState (layers.decrypt 9 (fun j => roundKey (run.inputs (v j)).key (10 - j))
        (toState (run.inputs u).textIn)) := by
  have text := text_out_after_load run 9 loaded fun i after before =>
    (quiet_of_interleaved interleaved later loaded i after (by omega)).2
  rw [show u + 12 = u + 3 + 9 by omega, text]
  exact congrArg ofState (layers.decrypt_congr _ fun j inside =>
    slots_of_last_writers interleaved later loaded inside (writers j inside))

/-- Under one key, that is the inverse cipher of the standard. Several key loads may have
written the slots, as long as they presented the same key. -/
theorem text_of_single_key (interleaved : run.Interleaved first) (later : first ≤ u)
    (loaded : (run.inputs u).ld = true) {v : Nat → Nat}
    (writers : ∀ j, j ≤ 10 → run.LastWriter (u + j) j (v j)) {key : Block}
    (same : ∀ j, j ≤ 10 → (run.inputs (v j)).key = key) :
    (run.state (u + 12)).textOut = invCipher key (run.inputs u).textIn := by
  rw [text_of_last_writers interleaved later loaded writers, invCipher]
  refine congrArg ofState (layers.decrypt_congr _ fun j inside => ?_)
  rw [same j inside]
  rfl

/-- Once a key load has run its course, every slot has a last writer. It is that load, or a
later one that reached the slot. -/
theorem last_writer_exists {t n j : Nat} (fired : run.KeyFired t)
    (alone : ∀ i, t < i → i < t + 12 → run.KeyQuiet i) (later : t + 12 ≤ n) (inside : j ≤ 10) :
    ∃ v, run.LastWriter n j v := by
  obtain ⟨v, _, ⟨reaches, before⟩, none⟩ := Clocked.exists_last
    (fun v => run.Reaches v j ∧ v + 11 - j < n) (n := n)
    ⟨t, by omega, ⟨fired, fun i after earlier => alone i after (by omega)⟩, by omega⟩
  refine ⟨v, reaches, before, fun w other early => ?_⟩
  by_cases newer : v < w
  · exact absurd ⟨other, early⟩ (none w newer (by omega))
  · exact Nat.le_of_not_lt newer

/-- With no key load near a decryption, the last one before it wrote all slots: it is
complete when the reads begin, and no other load reaches a slot before they end. -/
theorem last_writer_far (interleaved : run.Interleaved first) {w : Nat}
    (fired : run.KeyFired w) (early : w + 12 ≤ u)
    (last : ∀ i, w < i → i ≤ u + 8 → (run.inputs i).kld = false) {j : Nat} (inside : j ≤ 10) :
    run.LastWriter (u + j) j w where
  reaches := by
    have from' := first_le_fired interleaved fired
    exact ⟨fired, fun i after before => ⟨interleaved.rst_true (by omega), last i after (by omega)⟩⟩
  before := by omega
  last v other reached := by
    by_cases near : w < v ∧ v ≤ u + 8
    · exact absurd ((last v near.1 near.2).symm.trans other.1.2) Bool.false_ne_true
    · omega

/-- If no key load starts near a decryption, some key load is the last one before it, and it
starts early enough to be complete. -/
theorem last_key_load (interleaved : run.Interleaved first) {t : Nat} (fired : run.KeyFired t)
    (later : t + 12 ≤ u) (far : ∀ i, u ≤ i + 11 → i ≤ u + 8 → (run.inputs i).kld = false) :
    ∃ w, run.KeyFired w ∧ w + 12 ≤ u ∧ ∀ i, w < i → i ≤ u + 8 → (run.inputs i).kld = false := by
  obtain ⟨w, before, started, none⟩ := Clocked.exists_last run.KeyFired (n := u)
    ⟨t, by omega, fired⟩
  have from' := first_le_fired interleaved started
  refine ⟨w, started, ?_, fun i after close => ?_⟩
  · by_cases near : u ≤ w + 11
    · exact absurd ((far w near (by omega)).symm.trans started.2) Bool.false_ne_true
    · omega
  · by_cases near : u ≤ i + 11
    · exact far i near close
    · have notFired := none i after (by omega)
      exact Bool.eq_false_iff.mpr fun again => notFired ⟨interleaved.rst_true (by omega), again⟩

end Interleaved

/-- Which keys a decryption uses. In any interleaving of key loads with loads on an idle
core, after a first complete key load, a load at clock `u` completes twelve clocks later;
each slot has a last writer at the clock that reads it, and the text is the inverse
cipher with the round keys of these writers. It is the inverse cipher under one key if
they all presented that key. If no key load starts from eleven clocks before clock `u` up
to eight clocks after it, this is certain, and the key is that of the last key load before
clock `u`. -/
theorem decryption_keys (run : Run) {first t u : Nat} (two : 2 ≤ first)
    (reset : ∀ n, (run.inputs n).rst = decide (first ≤ n))
    (hits : ∀ n, first ≤ n → (run.inputs n).ld = true →
      (run.state n).dcnt = 0x0#4 ∧ (run.state n).done = false)
    (keyed : first ≤ t ∧ (run.inputs t).kld = true)
    (alone : ∀ i, t < i → i < t + 12 → (run.inputs i).kld = false) (later : t + 12 ≤ u)
    (loaded : (run.inputs u).ld = true) :
    ((∀ n, u < n → n < u + 12 → (run.state n).done = false) ∧
      (run.state (u + 12)).done = true) ∧
    (∀ j, j ≤ 10 → ∃ v, run.LastWriter (u + j) j v) ∧
    (∀ v : Nat → Nat, (∀ j, j ≤ 10 → run.LastWriter (u + j) j (v j)) →
      (run.state (u + 12)).textOut =
        ofState (layers.decrypt 9 (fun j => roundKey (run.inputs (v j)).key (10 - j))
          (toState (run.inputs u).textIn)) ∧
      ∀ key, (∀ j, j ≤ 10 → (run.inputs (v j)).key = key) →
        (run.state (u + 12)).textOut = invCipher key (run.inputs u).textIn) ∧
    ((∀ i, u ≤ i + 11 → i ≤ u + 8 → (run.inputs i).kld = false) →
      ∃ w, (first ≤ w ∧ w < u ∧ (run.inputs w).kld = true) ∧
        (∀ i, w < i → i < u → (run.inputs i).kld = false) ∧
        (run.state (u + 12)).textOut = invCipher (run.inputs w).key (run.inputs u).textIn) := by
  have interleaved : run.Interleaved first := ⟨two, reset, hits⟩
  have from' : first ≤ u := by omega
  have quiet := quiet_of_interleaved interleaved from' loaded
  have keyFired : run.KeyFired t := ⟨interleaved.rst_true keyed.1, keyed.2⟩
  refine ⟨done_fresh run ⟨interleaved.rst_true from', loaded⟩ (hits u from' loaded).2 quiet,
    fun j inside => ?_, fun v writers => ⟨?_, fun key same => ?_⟩, fun far => ?_⟩
  · exact last_writer_exists keyFired
      (fun i after before => ⟨interleaved.rst_true (by omega), alone i after before⟩) (by omega)
      inside
  · exact text_of_last_writers interleaved from' loaded writers
  · exact text_of_single_key interleaved from' loaded writers same
  · obtain ⟨w, fired, early, last⟩ := last_key_load interleaved keyFired later far
    exact ⟨w, ⟨first_le_fired interleaved fired, by omega, fired.2⟩,
      fun i after before => last i after (by omega), text_of_single_key interleaved from' loaded
        (fun j inside => last_writer_far interleaved fired early last inside) fun _ _ => rfl⟩

/-- Two clocks of reset, a load of key 0 at clock 2, a load of the zero block at clock 14,
and a load of key 1 at clock 22, just early enough to rewrite slot 10. -/
def tornRun : Run where
  start := default
  inputs n := ⟨decide (2 ≤ n), n == 2 || n == 22, n == 14, if n == 22 then 1#128 else 0#128, 0#128⟩
  outside _ := 0#128

/-- The two key loads of that run, of which the second comes while the decryption reads the
buffer. -/
theorem torn_fired {v : Nat} (fired : tornRun.KeyFired v) : v = 2 ∨ v = 22 := by
  simpa [tornRun] using fired.2

/-- Its loads hit an idle core: there is only one, and nothing has been loaded before it. -/
theorem torn_interleaved : tornRun.Interleaved 2 where
  two := Nat.le_refl 2
  reset _ := rfl
  hits n _ loaded := by
    have same : n = 14 := by simpa [tornRun] using loaded
    subst same
    have idle : Shows .idle (tornRun.state 14) :=
      idle_held tornRun (by decide) (idle_after_reset tornRun (m := 0) rfl rfl) fun i _ before =>
        beq_false_of_ne (Nat.ne_of_lt before)
    exact ⟨BitVec.eq_of_toNat_eq idle.dcnt, idle.done⟩

/-- No key load follows the first one too soon, so the buffer is complete when the
decryption begins. -/
theorem torn_alone (i : Nat) (after : 2 < i) (before : i < 14) :
    (tornRun.inputs i).kld = false := by
  have first : i ≠ 2 := by omega
  have second : i ≠ 22 := by omega
  simp [tornRun, first, second]

/-- The decryption reads slots 0 to 9 as the first key load left them, and slot 10 from the
second, which writes it two clocks before it is read. -/
theorem torn_writers (j : Nat) (inside : j ≤ 10) :
    tornRun.LastWriter (14 + j) j (if j = 10 then 22 else 2) := by
  by_cases final : j = 10
  · subst final
    refine ⟨⟨⟨rfl, rfl⟩, fun i after before => by omega⟩, by decide, fun w other _ => ?_⟩
    rcases torn_fired other.1 with rfl | rfl <;> decide
  · simp only [final, ↓reduceIte]
    refine ⟨⟨⟨rfl, rfl⟩, fun i after before => ?_⟩, by omega, fun w other reached => ?_⟩
    · exact ⟨decide_eq_true (by omega), torn_alone i after (by omega)⟩
    · rcases torn_fired other.1 with rfl | rfl <;> omega

/-- The torn decryption falls under the law for interleavings: it completes, with the round
keys of two schedules. -/
theorem decryption_keys_torn : (tornRun.state 26).done = true ∧
    (tornRun.state 26).textOut = ofState (layers.decrypt 9
      (fun j => roundKey (tornRun.inputs (if j = 10 then 22 else 2)).key (10 - j))
      (toState 0#128)) := by
  have law := decryption_keys tornRun (t := 2) (u := 14) (Nat.le_refl 2) (fun _ => rfl)
    torn_interleaved.hits ⟨by decide, rfl⟩ (fun i after before => torn_alone i after (by omega))
    (by decide) rfl
  exact ⟨law.1.2, (law.2.2.1 _ torn_writers).1⟩

/-- The inverse cipher, as the wires of the core and of its schedule compute it. In this
form both sides of the counterexample can be evaluated. -/
theorem decipher_schedule (key text : Block) :
    decipher 9 (fun j => (KeyExpand.schedule key (10 - j)).w) text = invCipher key text := by
  rw [decipher_eq, invCipher]
  exact congrArg ofState (layers.decrypt_congr _ fun j _ =>
    (KeyExpand.scheduled_schedule key (by omega)).1)

/-- The text of the torn decryption, as these wires compute it, with the last round key of
another schedule. -/
theorem torn_text : (tornRun.state 26).textOut = decipher 9
    (fun j => (KeyExpand.schedule (if j = 10 then 1#128 else 0#128) (10 - j)).w) 0#128 := by
  rw [decipher_eq]
  refine (text_of_last_writers torn_interleaved (u := 14) (by decide) rfl torn_writers).trans ?_
  refine congrArg ofState (layers.decrypt_congr _ fun j inside => ?_)
  have key : (tornRun.inputs (if j = 10 then 22 else 2)).key =
      if j = 10 then 1#128 else 0#128 := by
    by_cases final : j = 10 <;> simp [final, tornRun]
  rw [key, (KeyExpand.scheduled_schedule _ (by omega)).1]

/-- A torn key: the decryption completes, and its text is the inverse cipher under none
of the keys that the run presents at a key load. -/
theorem torn_key :
    (∀ n, (tornRun.inputs n).rst = decide (2 ≤ n)) ∧
      (∀ n, 2 ≤ n → (tornRun.inputs n).ld = true →
        (tornRun.state n).dcnt = 0x0#4 ∧ (tornRun.state n).done = false) ∧
      ((tornRun.inputs 2).kld = true ∧ ∀ i, 2 < i → i < 14 → (tornRun.inputs i).kld = false) ∧
      (tornRun.inputs 14).ld = true ∧ (tornRun.state 26).done = true ∧
      ∀ v, tornRun.KeyFired v →
        (tornRun.state 26).textOut ≠ invCipher (tornRun.inputs v).key (tornRun.inputs 14).textIn := by
  have quiet := quiet_of_interleaved torn_interleaved (u := 14) (by decide) rfl
  have free := (torn_interleaved.hits 14 (by decide) rfl).2
  refine ⟨fun _ => rfl, torn_interleaved.hits, ⟨rfl, torn_alone⟩, rfl,
    (done_fresh tornRun (u := 14) ⟨rfl, rfl⟩ free quiet).2, fun v fired => ?_⟩
  rw [torn_text]
  rcases torn_fired fired with rfl | rfl
  · change _ ≠ invCipher 0#128 0#128
    rw [← decipher_schedule]
    decide +kernel
  · change _ ≠ invCipher 1#128 0#128
    rw [← decipher_schedule]
    decide +kernel

end AesCore.InvCipherTop
