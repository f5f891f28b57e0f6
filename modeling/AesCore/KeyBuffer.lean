import AesCore.InvCipherTop

/-!
# The key buffer of the decryption core

A key load sets `kcnt` to ten and `kb_ld` for eleven clocks. In these clocks the
schedule, which is loaded by the same pulse, produces round keys 0 to 10, and they
are written to slots 10 down to 0. `Loading` says how far that has come; it is
established by any load and kept by any clock without one. From a reset on, nothing
but a load writes the buffer, so `kb_ld` is set only within eleven clocks of the
load it belongs to, and a complete buffer stays complete until the next load.
-/

namespace AesCore.InvCipherTop

open Fips197
open StateRegisters
open KeyExpand (Scheduled)

/-- Round key `j` as a slot of the buffer keeps it: the four words side by side, the last
one in the highest bits. -/
def stored (key : Block) (j : Nat) : Block :=
  roundKey key j 3 ++ roundKey key j 2 ++ roundKey key j 1 ++ roundKey key j 0

/-- Unpacking a stored round key gives its four words, each from its bits of the slot. -/
theorem unpack_stored (key : Block) (j : Nat) : (unpack (stored key j)).word = roundKey key j := by
  obtain ⟨w3, w2, w1, w0⟩ := extract_quarters (roundKey key j 3) (roundKey key j 2)
    (roundKey key j 1) (roundKey key j 0)
  funext c
  match c with
  | 0 => exact w0
  | 1 => exact w1
  | 2 => exact w2
  | 3 => exact w3

/-- The schedule offers its round key to the buffer in that form, once it has reached it. -/
theorem pack_scheduled {key : Block} {j : Nat} {s : KeyExpand.Registers}
    (scheduled : Scheduled key j s) : pack s.w = stored key j := by
  have word (c : Fin 4) : s.w.word c = roundKey key j c := congrFun scheduled.1 c
  rw [stored, ← word, ← word, ← word, ← word]
  rfl

/-- A load of `key` before its clock number `k`, counted from zero: while `k` is at
most ten the buffer is open at slot `10 - k` and the schedule stands at round key
`k`, and the round keys before it have been written. -/
structure Loading (key : Block) (k : Nat) (s : Registers) : Prop where
  writing : s.kbLd = decide (k ≤ 10)
  position : k ≤ 10 → s.kcnt.toNat = 10 - k ∧ Scheduled key k s.u0
  written : ∀ i, i < k → i ≤ 10 → s.kb[10 - i]? = some (stored key i)

/-- All eleven slots hold the round keys of one key, last round key first. This is the order
in which a decryption reads them, counting up. -/
def Complete (key : Block) (s : Registers) : Prop :=
  ∀ j, j ≤ 10 → s.kb[j]? = some (stored key (10 - j))

/-- The registers while the buffer is open for `key`: the slot to be written exists, the
schedule offers the round key that belongs there, and the slots above it have theirs. -/
structure Filling (key : Block) (s : Registers) : Prop where
  inside : s.kcnt.toNat ≤ 10
  offered : s.u0.w.word = roundKey key (10 - s.kcnt.toNat)
  filled : ∀ i : Fin 11, s.kcnt.toNat < i.val →
    (unpack (s.kb.get i)).word = roundKey key (10 - i.val)

/-- A slot that holds a stored round key unpacks to it. It connects what the writer stores
with what the reader takes. -/
theorem unpack_slot {key : Block} {j : Nat} {s : Registers} {i : Fin 11}
    (content : s.kb[i.val]? = some (stored key j)) :
    (unpack (s.kb.get i)).word = roundKey key j := by
  obtain ⟨_, same⟩ := Vector.getElem?_eq_some_iff.mp content
  have slot : s.kb.get i = stored key j := same
  rw [slot, unpack_stored]

/-- A load in progress is filling the buffer. The first is said in terms of clocks, the
second of registers. -/
theorem filling_of_loading {key : Block} {k : Nat} {s : Registers} (loading : Loading key k s)
    (inside : k ≤ 10) : Filling key s := by
  obtain ⟨position, scheduled⟩ := loading.position inside
  have round : 10 - s.kcnt.toNat = k := by omega
  refine ⟨by omega, ?_, ?_⟩
  · rw [round]
    exact scheduled.1
  · intro i above
    apply unpack_slot
    have written := loading.written (10 - i.val) (by omega) (by omega)
    rwa [show 10 - (10 - i.val) = i.val by omega] at written

/-- A load that has run its course has completed the buffer: it has written eleven slots. -/
theorem complete_of_loading {key : Block} {s : Registers} (loading : Loading key 11 s) :
    Complete key s := by
  intro j inside
  have content := loading.written (10 - j) (by omega) (by omega)
  rwa [show 10 - (10 - j) = j by omega] at content

/-- A slot that the clock does not write keeps its content. The only slot that is written is
the one at `kcnt`, and only while the buffer is open. -/
theorem slot_held {s : Registers} {j : Nat} (apart : s.kbLd = true → s.kcnt.toNat ≠ j)
    (i : Inputs) (outside : Block) : (step s i outside).kb[j]? = s.kb[j]? := by
  cases writing : s.kbLd
  · simp [step, writing]
  · have other := apart writing
    simp [step, writing, Vector.getElem?_setIfInBounds_ne other]

/-- A clock of a load writes its round key to its slot, whatever else it does. A reset or
another load in this clock comes too late. -/
theorem slot_written {key : Block} {k : Nat} {s : Registers} (loading : Loading key k s)
    (inside : k ≤ 10) (i : Inputs) (outside : Block) :
    (step s i outside).kb[10 - k]? = some (stored key k) := by
  obtain ⟨position, scheduled⟩ := loading.position inside
  have writing : s.kbLd = true := loading.writing.trans (decide_eq_true inside)
  simp only [step, writing, position, pack_scheduled scheduled, ↓reduceIte]
  exact Vector.getElem?_setIfInBounds_self_of_lt (by omega)

/-- A clock with `kld` and without reset starts a load, from any registers: the pointer is
at the last slot, and the schedule at the key itself. -/
theorem loading_start (s : Registers) {i : Inputs} (outside : Block) (running : i.rst = true)
    (loaded : i.kld = true) : Loading i.key 0 (step s i outside) where
  writing := by simp [step, running, loaded]
  position _ := by
    refine ⟨by simp [step, running, loaded], ?_⟩
    simp only [step, loaded]
    exact KeyExpand.step_load s.u0 i.key
  written i impossible := absurd impossible (Nat.not_lt_zero i)

/-- A load with a step still to make advances by one in a clock without `kld` or reset.
Pointer and schedule move together. -/
theorem loading_step {key : Block} {k : Nat} {s : Registers} (loading : Loading key k s)
    (inside : k ≤ 10) {i : Inputs} (outside : Block) (running : i.rst = true)
    (idle : i.kld = false) : Loading key (k + 1) (step s i outside) := by
  obtain ⟨position, scheduled⟩ := loading.position inside
  have writing : s.kbLd = true := loading.writing.trans (decide_eq_true inside)
  have last : ∀ d : BitVec 4, (d == 0x0#4) = decide (d.toNat = 0) := by decide
  have counted : ∀ d : BitVec 4, d.toNat ≠ 0 → (d - 0x1#4).toNat = d.toNat - 1 := by decide
  refine ⟨?_, fun more => ⟨?_, ?_⟩, ?_⟩
  · by_cases final : k = 10
    · simp [step, running, idle, last, position, final]
    · have notLast : ¬ 10 - k = 0 := by omega
      have more : k + 1 ≤ 10 := by omega
      simp [step, running, idle, last, position, notLast, writing, more]
  · have nonzero : s.kcnt.toNat ≠ 0 := by omega
    have fewer : 10 - k - 1 = 10 - (k + 1) := by omega
    simp only [step, running, idle, writing, Bool.not_true, Bool.false_eq_true, ↓reduceIte]
    rw [counted s.kcnt nonzero, position, fewer]
  · simp only [step, idle]
    exact KeyExpand.step_advance scheduled (by omega) i.key
  · intro round earlier bounded
    by_cases now : round = k
    · rw [now]
      exact slot_written loading inside i outside
    · rw [slot_held (fun _ => by omega)]
      exact loading.written round (by omega) bounded

/-- A clock that starts a key load: it has `kld` set and does not reset. -/
def Run.KeyFired (run : Run) (n : Nat) : Prop :=
  (run.inputs n).rst = true ∧ (run.inputs n).kld = true

/-- A clock that lets a key load proceed: it has `kld` clear and does not reset. -/
def Run.KeyQuiet (run : Run) (n : Nat) : Prop :=
  (run.inputs n).rst = true ∧ (run.inputs n).kld = false

/-- How far the load of clock `t` has come after `k` clocks without another load or a reset.
The induction is over these clocks. -/
theorem loading_run (run : Run) {t k : Nat} (fired : run.KeyFired t) (inside : k ≤ 11)
    (quiet : ∀ i, t < i → i < t + 1 + k → run.KeyQuiet i) :
    Loading (run.inputs t).key k (run.state (t + 1 + k)) :=
  Clocked.run_stretch run.KeyQuiet (Loading (run.inputs t).key)
    (loading_start (run.state t) (run.outside t) fired.1 fired.2)
    (fun _ _ more quiet loading =>
      loading_step loading (by omega) (run.outside _) quiet.1 quiet.2)
    inside quiet

/-- A key load followed by eleven clocks without another or a reset leaves the buffer
complete and closed, so that a decryption may begin. -/
theorem key_loaded (run : Run) {t : Nat} (fired : run.KeyFired t)
    (quiet : ∀ i, t < i → i < t + 12 → run.KeyQuiet i) :
    Complete (run.inputs t).key (run.state (t + 12)) ∧ (run.state (t + 12)).kbLd = false := by
  have loading := loading_run run fired (Nat.le_refl 11) quiet
  exact ⟨complete_of_loading loading, loading.writing⟩

/-- A buffer that is not being written stays closed while no load starts. A reset cannot
open it. -/
theorem closed_held (run : Run) {m n : Nat} (later : m ≤ n) (closed : (run.state m).kbLd = false)
    (none : ∀ i, m ≤ i → i < n → ¬ run.KeyFired i) : (run.state n).kbLd = false := by
  induction n, later using Nat.le_induction with
  | base => exact closed
  | succ n later inductionHypothesis =>
    have before := inductionHypothesis fun i after earlier => none i after (by omega)
    have notFired := none n later (Nat.lt_succ_self n)
    rw [run.state_succ]
    cases running : (run.inputs n).rst
    · simp [step, running]
    · have idle : (run.inputs n).kld = false := by
        simpa [Run.KeyFired, running] using notFired
      simp [step, running, idle, before]

/-- A buffer that is not being written keeps its contents for one clock longer than no load
starts, since a load writes for the first time in the clock after it. -/
theorem kb_held (run : Run) {m n : Nat} (later : m ≤ n) (closed : (run.state m).kbLd = false)
    (none : ∀ i, m ≤ i → i + 1 < n → ¬ run.KeyFired i) :
    (run.state n).kb = (run.state m).kb := by
  refine Clocked.run_held (fun s : Registers => s.kb) later fun i after before => ?_
  have shut : (run.state i).kbLd = false :=
    closed_held run after closed fun l from' earlier => none l from' (by omega)
  change (step (run.state i) (run.inputs i) (run.outside i)).kb = (run.state i).kb
  simp only [step, shut, Bool.false_eq_true, ↓reduceIte]

/-- So a complete buffer stays complete for as long. What a reader finds in it is then
known. -/
theorem complete_held (run : Run) {key : Block} {m n : Nat} (later : m ≤ n)
    (complete : Complete key (run.state m)) (closed : (run.state m).kbLd = false)
    (none : ∀ i, m ≤ i → i + 1 < n → ¬ run.KeyFired i) : Complete key (run.state n) := by
  intro j inside
  rw [kb_held run later closed none]
  exact complete j inside

/-- From a clock of reset on, the buffer is open only within eleven clocks of a load
that nothing has cancelled. -/
theorem open_since (run : Run) {m : Nat} (cleared : (run.inputs m).rst = false) :
    ∀ n, m + 1 ≤ n → (run.state n).kbLd = true →
      ∃ k, k ≤ 10 ∧ Clocked.Since run.KeyFired run.KeyQuiet k n := by
  intro n later
  induction n, later using Nat.le_induction with
  | base =>
    intro opened
    rw [run.state_succ] at opened
    simp [step, cleared] at opened
  | succ n later inductionHypothesis =>
    intro opened
    rw [run.state_succ] at opened
    cases running : (run.inputs n).rst
    · simp [step, running] at opened
    · cases loaded : (run.inputs n).kld
      · have still : (run.state n).kcnt ≠ 0x0#4 ∧ (run.state n).kbLd = true := by
          simpa [step, running, loaded] using opened
        obtain ⟨k, inside, since⟩ := inductionHypothesis still.2
        obtain ⟨t, rfl, fired, quiet⟩ := Clocked.since_iff.mp since
        have position := ((loading_run run fired (by omega) quiet).position inside).1
        have nonzero : (run.state (t + 1 + k)).kcnt.toNat ≠ 0 := by
          intro zero
          exact still.1 (BitVec.eq_of_toNat_eq zero)
        exact ⟨k + 1, by omega, since, running, loaded⟩
      · exact ⟨0, by omega, running, loaded⟩

/-- After a reset, a buffer with no load in the last eleven clocks is closed, because it is
open for eleven clocks at most. -/
theorem closed_of_quiet (run : Run) {m n : Nat} (cleared : (run.inputs m).rst = false)
    (later : m < n) (none : ∀ i, n ≤ i + 11 → i < n → ¬ run.KeyFired i) :
    (run.state n).kbLd = false := by
  cases opened : (run.state n).kbLd
  · rfl
  · obtain ⟨k, inside, since⟩ := open_since run cleared n later opened
    obtain ⟨t, rfl, fired, _⟩ := Clocked.since_iff.mp since
    exact absurd fired (none t (by omega) (by omega))

/-- Clock `t` is the last before clock `n` with `kld` set, with or without reset. The
schedule looks at `kld` alone. -/
def Run.LastKld (run : Run) (t n : Nat) : Prop :=
  t < n ∧ (run.inputs t).kld = true ∧ ∀ i, t < i → i < n → (run.inputs i).kld = false

/-- The key buffer. Whenever it is open, in any state after the reset, it is being filled
with the round keys of the key that the last `kld` presented, so no load that was cut short
or restarted leaves a write behind. A load that runs its course leaves it closed and
complete, and its contents last up to the clock that starts the next load. -/
theorem key_buffer (run : Run) (cleared : (run.inputs 0).rst = false) :
    (∀ n, 0 < n → (run.state n).kbLd = true →
      ∃ t, run.LastKld t n ∧ Filling (run.inputs t).key (run.state n)) ∧
    ∀ t, (run.inputs t).rst = true → (run.inputs t).kld = true →
      (∀ i, t < i → i ≤ t + 11 → (run.inputs i).rst = true ∧ (run.inputs i).kld = false) →
      (run.state (t + 12)).kbLd = false ∧
      (∀ i : Fin 11, (unpack ((run.state (t + 12)).kb.get i)).word =
        roundKey (run.inputs t).key (10 - i.val)) ∧
      ∀ n, t + 12 ≤ n →
        (∀ i, t + 12 ≤ i → i + 1 < n →
          ¬ ((run.inputs i).rst = true ∧ (run.inputs i).kld = true)) →
        (run.state n).kb = (run.state (t + 12)).kb := by
  constructor
  · intro n later opened
    obtain ⟨k, inside, since⟩ := open_since run cleared n later opened
    obtain ⟨t, rfl, fired, quiet⟩ := Clocked.since_iff.mp since
    have last : run.LastKld t (t + 1 + k) :=
      ⟨by omega, fired.2, fun i after before => (quiet i after before).2⟩
    exact ⟨t, last, filling_of_loading (loading_run run fired (by omega) quiet) inside⟩
  · intro t running loaded quiet
    obtain ⟨complete, closed⟩ := key_loaded run (t := t) ⟨running, loaded⟩
      fun i after before => quiet i after (by omega)
    refine ⟨closed, ?_, fun n later none => kb_held run later closed none⟩
    intro i
    exact unpack_slot (complete i.val (by omega))

/-- A load held for two clocks, started again in the middle and cut by a reset; then one
that runs its course, another reset, and a later load. The key input changes at every
clock. -/
def interruptedRun : Run where
  start := default
  inputs n := ⟨n != 0 && n != 8 && n != 24, [2, 3, 6, 10, 30].contains n, n % 3 == 0,
    BitVec.ofNat 128 n, 0#128⟩
  outside _ := 0#128

/-- The buffer in the middle of the restarted load, after the complete one, and just after
the clock that starts the last one. -/
theorem key_buffer_interrupted :
    (∃ t, interruptedRun.LastKld t 8 ∧
      Filling (interruptedRun.inputs t).key (interruptedRun.state 8)) ∧
    (interruptedRun.state 22).kbLd = false ∧
    (∀ i : Fin 11, (unpack ((interruptedRun.state 22).kb.get i)).word =
      roundKey 10#128 (10 - i.val)) ∧
    (interruptedRun.state 31).kb = (interruptedRun.state 22).kb := by
  have quiet : ∀ i, i < 22 → 10 < i →
      (interruptedRun.inputs i).rst = true ∧ (interruptedRun.inputs i).kld = false := by decide
  have idle : ∀ i, i < 30 → 22 ≤ i → (interruptedRun.inputs i).kld = false := by decide
  have law := key_buffer interruptedRun rfl
  obtain ⟨closed, slots, held⟩ := law.2 10 rfl rfl fun i after before =>
    quiet i (Nat.lt_succ_of_le before) after
  refine ⟨law.1 8 (by decide) rfl, closed, slots, held 31 (by decide) ?_⟩
  rintro i after before ⟨_, loaded⟩
  have absent := idle i (by omega) after
  exact Bool.false_ne_true (absent.symm.trans loaded)

end AesCore.InvCipherTop
