import AesCore.InvCipherTop

/-!
# The control of the decryption core

Three registers sequence a decryption: the counter `dcnt`, the bit `go` that lets it
run, and `done`. `Phase` is the machine they implement. An operation counts up to
twelve, and the state with count twelve is the one that shows `done`; a load
restarts the count at one, or at zero where `done` is set, because the counter
prefers `done` to `ld`. A reset stops the count, but since `done` is not reset, one
that meets count eleven leaves `done` behind in a stale phase.

The registers follow the phases from any state that shows a phase, and one clock of
reset leads to such a state from arbitrary contents.
-/

namespace AesCore.InvCipherTop

open Fips197

/-- What the control registers of the decryption core can say. The three registers have many
more values together, which a clock of reset excludes. -/
inductive Phase where
  /-- No operation, and no completion to report. -/
  | idle
  /-- An operation at count `k`; count twelve reports its completion. -/
  | counting (k : Nat) (bounded : k ≤ 12)
  /-- No operation, but a completion reported after the reset that removed it. -/
  | stale

/-- The value of `dcnt` in a phase. -/
@[simp] def Phase.dcnt : Phase → Nat
  | idle => 0
  | counting k _ => k
  | stale => 0

/-- The value of `go` in a phase. -/
@[simp] def Phase.go : Phase → Bool
  | idle => false
  | counting _ _ => true
  | stale => false

/-- The value of `done` in a phase. -/
@[simp] def Phase.done : Phase → Bool
  | idle => false
  | counting k _ => decide (k = 12)
  | stale => true

/-- The phase after a clock with the given reset and load. A load prevails over everything
but a reset, and one that meets a completion starts from zero. -/
def Phase.next (rst ld : Bool) : Phase → Phase
  | idle => if rst && ld then counting 1 (by decide) else idle
  | stale => if rst && ld then counting 0 (by decide) else idle
  | counting k bounded =>
    if rst then
      if ld then
        if k = 12 then counting 0 (by decide) else counting 1 (by decide)
      else
        if last : k = 12 then idle else counting (k + 1) (by omega)
    else
      if k = 11 ∧ ld = false then stale else idle

/-- The control registers hold the values of a phase. Proofs speak of phases, and this
connects them to the registers. -/
structure Shows (phase : Phase) (s : Registers) : Prop where
  dcnt : s.dcnt.toNat = phase.dcnt
  go : s.go = phase.go
  done : s.done = phase.done

/-- The counter as a number. It has four bits and would wrap after fifteen, which the
invariant rules out. -/
theorem step_dcnt (s : Registers) (i : Inputs) (outside : Block) :
    (step s i outside).dcnt.toNat =
      if !i.rst then 0 else if s.done then 0 else if i.ld then 1
      else if s.go then (s.dcnt.toNat + 1) % 16 else s.dcnt.toNat := by
  simp only [step, apply_ite BitVec.toNat, BitVec.toNat_add]
  rfl

/-- The run bit, where a load prevails over a completion. It is what lets the counter
run. -/
theorem step_go (s : Registers) (i : Inputs) (outside : Block) :
    (step s i outside).go =
      if !i.rst then false else if i.ld then true else if s.done then false else s.go := rfl

/-- The done bit rises from count eleven unless the same clock loads; reset plays no part.
The encryption core has a reset here. -/
theorem step_done (s : Registers) (i : Inputs) (outside : Block) :
    (step s i outside).done = (decide (s.dcnt.toNat = 11) && !i.ld) := by
  have last : ∀ d : BitVec 4, (d == 0xb#4) = decide (d.toNat = 11) := by decide
  simp only [step, last]

/-- A load starts to count from any registers: at one, or at zero where `done` is set. In
the latter case the counter is cleared for the completion before. -/
theorem shows_load (s : Registers) {i : Inputs} (outside : Block) (running : i.rst = true)
    (loaded : i.ld = true) :
    Shows (.counting (if s.done then 0 else 1) (by split <;> decide)) (step s i outside) := by
  cases finished : s.done <;>
    exact ⟨by simp [step_dcnt, running, loaded, finished], by simp [step_go, running, loaded],
      by simp [step_done, loaded]⟩

/-- A reset clears the counter and `go`, while `done` looks at the old count alone. So an
operation at count eleven is reported after the reset that ends it. -/
theorem shows_abort {phase : Phase} {s : Registers} (shows : Shows phase s) {i : Inputs}
    (outside : Block) (cleared : i.rst = false) :
    Shows (phase.next false i.ld) (step s i outside) := by
  have count : (step s i outside).dcnt.toNat = 0 := by simp [step_dcnt, cleared]
  have stopped : (step s i outside).go = false := by simp [step_go, cleared]
  cases phase with
  | idle => exact ⟨count, stopped, by simp [step_done, shows.dcnt, Phase.next]⟩
  | stale => exact ⟨count, stopped, by simp [step_done, shows.dcnt, Phase.next]⟩
  | counting k bounded =>
    by_cases last : k = 11 ∧ i.ld = false
    · simp only [Phase.next, last, and_self, ↓reduceIte, Bool.false_eq_true]
      exact ⟨count, stopped, by simp [step_done, shows.dcnt, last]⟩
    · simp only [Phase.next, last, ↓reduceIte, Bool.false_eq_true]
      exact ⟨count, stopped, by simpa [step_done, shows.dcnt] using last⟩

/-- A clock without load or reset lets the count proceed, or ends a completion. An idle core
stays idle. -/
theorem shows_proceed {phase : Phase} {s : Registers} (shows : Shows phase s) {i : Inputs}
    (outside : Block) (running : i.rst = true) (idle : i.ld = false) :
    Shows (phase.next true false) (step s i outside) := by
  obtain ⟨dcnt, go, done⟩ := shows
  cases phase with
  | idle => exact ⟨by simp [step_dcnt, running, idle, done, go, dcnt, Phase.next],
      by simp [step_go, running, idle, done, go, Phase.next],
      by simp [step_done, dcnt, Phase.next]⟩
  | stale => exact ⟨by simp [step_dcnt, running, done, Phase.next],
      by simp [step_go, running, idle, done, Phase.next],
      by simp [step_done, dcnt, Phase.next]⟩
  | counting k bounded =>
    by_cases last : k = 12
    · simp only [Phase.next, last, ↓reduceIte, ↓reduceDIte, Bool.false_eq_true]
      exact ⟨by simp [step_dcnt, running, done, last], by simp [step_go, running, idle, done, last],
        by simp [step_done, dcnt, last]⟩
    · simp only [Phase.next, last, ↓reduceIte, ↓reduceDIte, Bool.false_eq_true]
      have small : (k + 1) % 16 = k + 1 := Nat.mod_eq_of_lt (by omega)
      exact ⟨by simp [step_dcnt, running, idle, done, go, dcnt, last, small],
        by simp [step_go, running, idle, done, go, last], by simp [step_done, idle, dcnt]⟩

/-- The control registers follow the phases. A reset, a load and a clock with neither are
the three cases. -/
theorem shows_next {phase : Phase} {s : Registers} (shows : Shows phase s) (i : Inputs)
    (outside : Block) : Shows (phase.next i.rst i.ld) (step s i outside) := by
  cases running : i.rst
  · exact shows_abort shows outside running
  · cases loaded : i.ld
    · exact shows_proceed shows outside running loaded
    · have restarted := shows_load s outside running loaded
      cases phase with
      | idle => simpa [Phase.next, shows.done] using restarted
      | stale => simpa [Phase.next, shows.done] using restarted
      | counting k bounded =>
        by_cases last : k = 12
        · simpa [Phase.next, shows.done, last] using restarted
        · simpa [Phase.next, shows.done, last] using restarted

/-- One clock of reset leads to a phase from any registers, stale or idle as the old count
is eleven or not. -/
theorem shows_reset (s : Registers) {i : Inputs} (outside : Block) (cleared : i.rst = false) :
    ∃ phase, Shows phase (step s i outside) := by
  cases finished : (step s i outside).done
  · exact ⟨.idle, by simp [step_dcnt, cleared], by simp [step_go, cleared], finished⟩
  · exact ⟨.stale, by simp [step_dcnt, cleared], by simp [step_go, cleared], finished⟩

/-- From a clock of reset on, the control registers always show a phase. So the counter
never passes twelve. -/
theorem shows_run (run : Run) {m : Nat} (cleared : (run.inputs m).rst = false) :
    ∀ n, m + 1 ≤ n → ∃ phase, Shows phase (run.state n) :=
  Clocked.run_invariant (fun _ s => ∃ phase, Shows phase s) (shows_reset _ _ cleared)
    fun n _ _ ⟨_, shows⟩ => ⟨_, shows_next shows (run.inputs n) (run.outside n)⟩

/-- Two clocks of reset leave the core idle. The first clears the counter, and the second
what `done` may have reported of it. -/
theorem idle_after_reset (run : Run) {m : Nat} (cleared : (run.inputs m).rst = false)
    (again : (run.inputs (m + 1)).rst = false) : Shows .idle (run.state (m + 2)) := by
  have zero : (run.state (m + 1)).dcnt.toNat = 0 := by
    rw [run.state_succ, step_dcnt]
    simp [cleared]
  rw [run.state_succ]
  exact ⟨by simp [step_dcnt, again], by simp [step_go, again], by simp [step_done, zero]⟩

/-- An idle core stays idle while nothing loads it, reset or not. The induction is over the
clocks without a load. -/
theorem idle_held (run : Run) {m n : Nat} (later : m ≤ n) (idle : Shows .idle (run.state m))
    (none : ∀ i, m ≤ i → i < n → (run.inputs i).ld = false) : Shows .idle (run.state n) := by
  induction n, later using Nat.le_induction with
  | base => exact idle
  | succ n later inductionHypothesis =>
    have before := inductionHypothesis fun i after earlier => none i after (by omega)
    have next := shows_next before (run.inputs n) (run.outside n)
    rwa [none n later (Nat.lt_succ_self n), Phase.next, Bool.and_false, if_neg Bool.false_ne_true]
      at next

/-- A clock that starts a decryption: it loads and does not reset. -/
def Run.Fired (run : Run) (n : Nat) : Prop :=
  (run.inputs n).rst = true ∧ (run.inputs n).ld = true

/-- A clock that lets an operation proceed: it neither loads nor resets. -/
def Run.Quiet (run : Run) (n : Nat) : Prop :=
  (run.inputs n).rst = true ∧ (run.inputs n).ld = false

/-- Undisturbed, an operation counts on, one with each clock, up to the twelve that report
its completion. -/
theorem shows_counting (run : Run) {n k j : Nat} {bounded : k ≤ 12}
    (shows : Shows (.counting k bounded) (run.state n)) (inside : k + j ≤ 12)
    (quiet : ∀ i, n ≤ i → i < n + j → run.Quiet i) :
    Shows (.counting (k + j) inside) (run.state (n + j)) := by
  induction j with
  | zero => exact shows
  | succ j inductionHypothesis =>
    have earlier := inductionHypothesis (by omega) fun i after before => quiet i after (by omega)
    obtain ⟨running, idle⟩ := quiet (n + j) (by omega) (by omega)
    have next := shows_next earlier (run.inputs (n + j)) (run.outside (n + j))
    have more : k + j ≠ 12 := by omega
    simp only [Phase.next, running, idle, more, ↓reduceIte, ↓reduceDIte, Bool.false_eq_true] at next
    exact next

/-!
## Where a phase comes from
-/

/-- Before clock `n`, an undisturbed load from clock `first` on has counted to `k`. It
has counted from one if it found `done` clear, and from zero otherwise. -/
def Run.Counted (run : Run) (first n k : Nat) : Prop :=
  ∃ u, first ≤ u ∧ run.Fired u ∧ (∀ i, u < i → i < n → run.Quiet i) ∧
    ((run.state u).done = false ∧ 1 ≤ k ∧ n = u + k ∨
      (run.state u).done = true ∧ n = u + 1 + k)

/-- What a phase before clock `n` says about the clocks from `first` on: a count tells of
the load that it counts from, and a stale completion of the reset that met the last
count. -/
def Run.Origin (run : Run) (first n : Nat) : Phase → Prop
  | .idle => True
  | .counting k _ => run.Counted first n k
  | .stale => ∃ i, n = i + 1 ∧ (run.inputs i).rst = false ∧ run.Counted first i 11

/-- A load is counted after its own clock, with one where it found `done` clear and with
zero where it did not. -/
theorem counted_load (run : Run) {first n : Nat} (later : first ≤ n) (fired : run.Fired n) :
    run.Counted first (n + 1) (if (run.state n).done then 0 else 1) := by
  refine ⟨n, later, fired, fun i after before => by omega, ?_⟩
  cases finished : (run.state n).done
  · exact Or.inl ⟨rfl, Nat.le_refl 1, rfl⟩
  · exact Or.inr ⟨rfl, rfl⟩

/-- A clock that disturbs nothing counts on, for the same load. -/
theorem counted_quiet (run : Run) {first n k : Nat} (counted : run.Counted first n k)
    (quiet : run.Quiet n) : run.Counted first (n + 1) (k + 1) := by
  obtain ⟨u, later, fired, stretch, started⟩ := counted
  refine ⟨u, later, fired, fun i after before => ?_, ?_⟩
  · rcases Nat.lt_succ_iff_lt_or_eq.mp before with earlier | rfl
    · exact stretch i after earlier
    · exact quiet
  · rcases started with ⟨free, one, rfl⟩ | ⟨finished, rfl⟩
    · exact Or.inl ⟨free, by omega, by omega⟩
    · exact Or.inr ⟨finished, by omega⟩

/-- From an idle state on, every phase has its origin. The induction is over the clocks, and
the cases are the phases with the inputs of the clock. -/
theorem origin_run (run : Run) {first : Nat} (idle : Shows .idle (run.state first)) :
    ∀ n, first ≤ n → ∃ phase, Shows phase (run.state n) ∧ run.Origin first n phase := by
  intro n later
  induction n, later using Nat.le_induction with
  | base => exact ⟨.idle, idle, trivial⟩
  | succ n later inductionHypothesis =>
    obtain ⟨phase, shows, origin⟩ := inductionHypothesis
    refine ⟨_, shows_next shows (run.inputs n) (run.outside n), ?_⟩
    have done := shows.done
    cases running : (run.inputs n).rst
    · cases phase with
      | idle => trivial
      | stale => trivial
      | counting k bounded =>
        by_cases last : k = 11 ∧ (run.inputs n).ld = false
        · obtain ⟨rfl, unloaded⟩ := last
          simp only [Phase.next, unloaded, and_self, ↓reduceIte, Bool.false_eq_true]
          exact ⟨n, rfl, running, origin⟩
        · simp only [Phase.next, last, ↓reduceIte, Bool.false_eq_true]
          trivial
    · cases loaded : (run.inputs n).ld
      · cases phase with
        | idle => trivial
        | stale => trivial
        | counting k bounded =>
          by_cases last : k = 12
          · simp only [Phase.next, last, ↓reduceIte, ↓reduceDIte, Bool.false_eq_true]
            trivial
          · simp only [Phase.next, last, ↓reduceIte, ↓reduceDIte, Bool.false_eq_true]
            exact counted_quiet run origin ⟨running, loaded⟩
      · have counted := counted_load run later ⟨running, loaded⟩
        cases phase with
        | idle => simpa [Phase.next, Run.Origin, done] using counted
        | stale => simpa [Phase.next, Run.Origin, done] using counted
        | counting k bounded =>
          by_cases last : k = 12
          · simpa [Phase.next, Run.Origin, done, last] using counted
          · simpa [Phase.next, Run.Origin, done, last] using counted

/-- A completion comes from an operation that has counted to twelve, or from one that a
reset met at count eleven. There is no third way. -/
theorem origin_of_done (run : Run) {first n : Nat} (idle : Shows .idle (run.state first))
    (later : first ≤ n) (done : (run.state n).done = true) :
    run.Counted first n 12 ∨
      ∃ i, n = i + 1 ∧ (run.inputs i).rst = false ∧ run.Counted first i 11 := by
  obtain ⟨phase, shows, origin⟩ := origin_run run idle n later
  have finished := shows.done.symm.trans done
  cases phase with
  | idle => exact absurd finished Bool.false_ne_true
  | stale => exact Or.inr origin
  | counting k bounded =>
    obtain rfl : k = 12 := of_decide_eq_true finished
    exact Or.inl origin

/-!
## Loads with room between them

Where twelve clocks without a load follow every load, each operation completes
before the next one starts, and `done` is the load of twelve clocks ago.
-/

/-- From clock `first` on there is no reset, and twelve clocks without a load follow every
load. The core is idle at `first`. -/
structure Run.Spaced (run : Run) (first : Nat) : Prop where
  idle : Shows .idle (run.state first)
  running : ∀ n, first ≤ n → (run.inputs n).rst = true
  apart : ∀ u n, first ≤ u → (run.inputs u).ld = true → u < n → n ≤ u + 12 →
    (run.inputs n).ld = false

section Spaced
variable {run : Run} {first : Nat}

/-- Two loads are more than twelve clocks apart, so the first has completed when the second
comes. -/
theorem loads_apart (spaced : run.Spaced first) {u n : Nat} (later : first ≤ u)
    (loaded : (run.inputs u).ld = true) (after : u < n) (again : (run.inputs n).ld = true) :
    u + 12 < n := by
  by_cases close : n ≤ u + 12
  · have idle := spaced.apart u n later loaded after close
    exact absurd (idle.symm.trans again) Bool.false_ne_true
  · exact Nat.lt_of_not_le close

/-- Each state is either idle, with every load more than twelve clocks back, or at the
count that its latest load prescribes. -/
theorem phase_spaced (spaced : run.Spaced first) : ∀ n, first ≤ n →
    (Shows .idle (run.state n) ∧
      ∀ u, first ≤ u → (run.inputs u).ld = true → u < n → u + 12 < n) ∨
    ∃ u k, ∃ bounded : k ≤ 12, first ≤ u ∧ (run.inputs u).ld = true ∧ n = u + k ∧ 1 ≤ k ∧
      Shows (.counting k bounded) (run.state n) := by
  intro n later
  induction n, later using Nat.le_induction with
  | base => exact Or.inl ⟨spaced.idle, fun u from' _ before => by omega⟩
  | succ n later inductionHypothesis =>
    have next {phase : Phase} (shows : Shows phase (run.state n)) :
        Shows (phase.next true (run.inputs n).ld) (run.state (n + 1)) := by
      have followed := shows_next shows (run.inputs n) (run.outside n)
      rwa [spaced.running n later] at followed
    rcases inductionHypothesis with ⟨shows, old⟩ | ⟨u, k, bounded, from', loaded, rfl, started, shows⟩
    · have followed := next shows
      cases load : (run.inputs n).ld
      · rw [load] at followed
        refine Or.inl ⟨followed, fun u from' loaded before => ?_⟩
        have different : u ≠ n := fun same =>
          Bool.false_ne_true (load.symm.trans (same ▸ loaded))
        have earlier := old u from' loaded (by omega)
        omega
      · rw [load] at followed
        exact Or.inr ⟨n, 1, by decide, later, load, rfl, Nat.le_refl 1, followed⟩
    · have followed := next shows
      rw [spaced.apart u (u + k) from' loaded (by omega) (by omega)] at followed
      by_cases last : k = 12
      · subst last
        refine Or.inl ⟨followed, fun i from'' again before => ?_⟩
        by_cases after : u < i
        · have far := loads_apart spaced from' loaded after again
          omega
        · omega
      · refine Or.inr ⟨u, k + 1, by omega, from', loaded, rfl, by omega, ?_⟩
        simpa only [Phase.next, last, ↓reduceIte, ↓reduceDIte, Bool.false_eq_true] using followed

/-- Every load finds the core idle, because the one before it is more than twelve clocks
back. -/
theorem idle_spaced (spaced : run.Spaced first) {u : Nat} (later : first ≤ u)
    (loaded : (run.inputs u).ld = true) : Shows .idle (run.state u) := by
  rcases phase_spaced spaced u later with ⟨shows, _⟩ | ⟨i, k, bounded, from', earlier, rfl, started, _⟩
  · exact shows
  · have far := loads_apart spaced from' earlier (by omega) loaded
    omega

/-- The core reports completion twelve clocks after each load and at no other time. This is
what the modules that use the core under this discipline cite. -/
theorem done_spaced (spaced : run.Spaced first) {n : Nat} (later : first ≤ n) :
    (run.state n).done = true ↔
      ∃ u, first ≤ u ∧ (run.inputs u).ld = true ∧ n = u + 12 := by
  rcases phase_spaced spaced n later with
    ⟨shows, old⟩ | ⟨u, k, bounded, from', loaded, rfl, started, shows⟩
  · rw [shows.done]
    constructor
    · intro impossible
      exact absurd impossible Bool.false_ne_true
    · rintro ⟨u, from', loaded, rfl⟩
      exact absurd (old u from' loaded (by omega)) (Nat.lt_irrefl _)
  · rw [shows.done, Phase.done, decide_eq_true_iff]
    constructor
    · intro last
      exact ⟨u, from', loaded, by omega⟩
    · rintro ⟨i, from'', again, same⟩
      rcases Nat.lt_trichotomy u i with after | equal | before
      · have far := loads_apart spaced from' loaded after again
        omega
      · omega
      · have far := loads_apart spaced from'' again before loaded
        omega

end Spaced

end AesCore.InvCipherTop
