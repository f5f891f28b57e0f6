import Mathlib.Order.Nat
import Mathlib.Logic.Function.Basic

/-!
# Runs of a clocked machine

A synchronous machine is a family of register updates, one for each clock. Its
run from given register contents is the sequence of contents just before each
clock; no reset, input alphabet or output function is built in, and the initial
contents are arbitrary.

Claims about pipelines speak of an event followed by a stretch of uneventful
clocks. `Since` counts that stretch. The rules below carry a property of single
steps to every state of a run: over a stretch, along a projection of the
registers, and over the clocks in which a register is not written.
-/

namespace Clocked

universe u v
variable {σ : Type u} {τ : Type v}

/-- The register contents just before clock `n`. Clock `n` itself leads from
`run step start n` to `run step start (n + 1)`. -/
def run (step : Nat → σ → σ) (start : σ) : Nat → σ
  | 0 => start
  | n + 1 => step n (run step start n)

/-- One clock of a run is one application of that clock's update. With this equation a proof
can step a run without unfolding its definition. -/
theorem run_succ (step : Nat → σ → σ) (start : σ) (n : Nat) :
    run step start (n + 1) = step n (run step start n) := rfl

/-- A property that holds before clock `first` and survives every later clock
holds from then on. -/
theorem run_invariant {step : Nat → σ → σ} {start : σ} (holds : Nat → σ → Prop) {first : Nat}
    (base : holds first (run step start first))
    (keeps : ∀ n state, first ≤ n → holds n state → holds (n + 1) (step n state)) :
    ∀ n, first ≤ n → holds n (run step start n) := by
  intro n later
  induction n, later using Nat.le_induction with
  | base => exact base
  | succ n later inductionHypothesis => exact keeps n _ later inductionHypothesis

/-- The stretch rule. A property that holds before clock `first` and is passed from
`k` to `k + 1` by any quiet clock, for `k` below `len`, holds after `k` quiet clocks.
What the run did before `first` plays no part. -/
theorem run_stretch {step : Nat → σ → σ} {start : σ} (quiet : Nat → Prop) (holds : Nat → σ → Prop)
    {len first k : Nat} (base : holds 0 (run step start first))
    (passes : ∀ k state, k < len → quiet (first + k) → holds k state →
      holds (k + 1) (step (first + k) state))
    (bounded : k ≤ len) (stretch : ∀ i, first ≤ i → i < first + k → quiet i) :
    holds k (run step start (first + k)) := by
  induction k with
  | zero => exact base
  | succ k inductionHypothesis =>
    have earlier := inductionHypothesis (by omega) fun i after before => stretch i after (by omega)
    exact passes k _ (by omega) (stretch (first + k) (by omega) (by omega)) earlier

/-- A projection that commutes with the clocks of a run maps it to a run. This is how
a component is observed inside the machine that instantiates it, also where its
inputs come from the other registers of that machine. -/
theorem run_map {step : Nat → σ → σ} {inner : Nat → τ → τ} {start : σ} (project : σ → τ)
    (commutes : ∀ n, project (step n (run step start n)) =
      inner n (project (run step start n))) (n : Nat) :
    project (run step start n) = run inner (project start) n := by
  induction n with
  | zero => rfl
  | succ n inductionHypothesis => rw [run_succ, commutes, inductionHypothesis, run_succ]

/-- Two runs from the same contents agree when their clocks do. The clocks need to agree on
every state, not only on those that the runs reach. -/
theorem run_congr {step other : Nat → σ → σ} (same : ∀ n state, step n state = other n state)
    (start : σ) (n : Nat) : run step start n = run other start n := by
  induction n with
  | zero => rfl
  | succ n inductionHypothesis => rw [run_succ, same, inductionHypothesis, run_succ]

/-- A register that no clock from `first` to `last - 1` changes keeps its value. The
register is read by an arbitrary function, so one entry of a memory is a register too. -/
theorem run_held {step : Nat → σ → σ} {start : σ} (read : σ → τ) {first last : Nat}
    (ordered : first ≤ last)
    (unchanged : ∀ n, first ≤ n → n < last →
      read (run step start (n + 1)) = read (run step start n)) :
    read (run step start last) = read (run step start first) := by
  induction last, ordered using Nat.le_induction with
  | base => rfl
  | succ last ordered inductionHypothesis =>
    rw [unchanged last ordered (Nat.lt_succ_self last)]
    exact inductionHypothesis fun n after before => unchanged n after (Nat.lt_succ_of_lt before)

/-- A machine in a loop with an environment that reads its registers. Where the moves that
are expected of the environment are the ones it makes against the machine they drive, the
loop makes these moves and drives the machine with them. -/
theorem run_closed {env : Type u} {step : Nat → σ → env → σ} {tick : Nat → env → σ → env}
    {expected : Nat → env} {start : σ}
    (justified : ∀ n, tick n (expected n) (run (fun n s => step n s (expected n)) start n) =
      expected (n + 1)) (n : Nat) :
    run (fun n loop => (tick n loop.1 loop.2, step n loop.2 loop.1)) (expected 0, start) n =
      (expected n, run (fun n s => step n s (expected n)) start n) := by
  induction n with
  | zero => rfl
  | succ n inductionHypothesis => rw [run_succ, inductionHypothesis, justified, run_succ]

/-- Just before clock `n`, the latest firing lies `k` quiet clocks back. What counts as a
firing and as a quiet clock is up to the machine; the predicate is the history that a
counter of clocks remembers. -/
def Since (fired quiet : Nat → Prop) : Nat → Nat → Prop
  | _, 0 => False
  | 0, n + 1 => fired n
  | k + 1, n + 1 => Since fired quiet k n ∧ quiet n

section Since
variable {fired quiet : Nat → Prop}

/-- The stretch spelled out: a firing at clock `m`, then quiet clocks up to `n`. Proofs
about runs speak of `m` and of the clocks between, and the counters of the machines of
`k`. -/
theorem since_iff {k n : Nat} :
    Since fired quiet k n ↔
      ∃ m, n = m + 1 + k ∧ fired m ∧ ∀ i, m < i → i < n → quiet i := by
  induction n generalizing k with
  | zero =>
    simp only [Since, false_iff, not_exists, not_and]
    intro m impossible
    omega
  | succ n inductionHypothesis =>
    cases k with
    | zero =>
      constructor
      · intro firing
        exact ⟨n, rfl, firing, fun i after before => by omega⟩
      · rintro ⟨m, same, firing, _⟩
        have equal : m = n := by omega
        exact equal ▸ firing
    | succ k =>
      simp only [Since, inductionHypothesis]
      constructor
      · rintro ⟨⟨m, same, firing, stretch⟩, last⟩
        refine ⟨m, by omega, firing, ?_⟩
        intro i after before
        rcases Nat.lt_succ_iff_lt_or_eq.mp before with earlier | rfl
        · exact stretch i after earlier
        · exact last
      · rintro ⟨m, same, firing, stretch⟩
        exact ⟨⟨m, by omega, firing, fun i after before => stretch i after (by omega)⟩,
          stretch n (by omega) (Nat.lt_succ_self n)⟩

end Since

/-- Among the clocks before `n` at which an event happened there is a last one. It separates
the history that matters from an arbitrary one before it. -/
theorem exists_last (event : Nat → Prop) {n : Nat} (some : ∃ m, m < n ∧ event m) :
    ∃ m, m < n ∧ event m ∧ ∀ i, m < i → i < n → ¬ event i := by
  induction n with
  | zero =>
    obtain ⟨m, before, _⟩ := some
    omega
  | succ n inductionHypothesis =>
    by_cases now : event n
    · exact ⟨n, Nat.lt_succ_self n, now, fun i after before => by omega⟩
    · obtain ⟨m, before, happened⟩ := some
      have different : m ≠ n := fun same => now (same ▸ happened)
      obtain ⟨last, lastBefore, lastHappened, none⟩ :=
        inductionHypothesis ⟨m, by omega, happened⟩
      refine ⟨last, by omega, lastHappened, ?_⟩
      intro i after beforeNext
      rcases Nat.lt_succ_iff_lt_or_eq.mp beforeNext with earlier | rfl
      · exact none i after earlier
      · exact now

end Clocked
