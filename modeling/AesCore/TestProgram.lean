import AesCore.AesEnv
import AesCore.Scoreboard

/-!
# The test program

The program `tb`: it reads its configuration, runs the warm-up iterations, replaces its
transaction object, and runs as many iterations as it is configured for. In each one the
object draws new values within its constraints, the cores and the model run, and the
checker compares them. The first error ends the program.

Weight zero excludes a value. A draw whose constraints exclude everything leaves the
object as it was: at full load density that happens in the first iteration after a load,
and from then on every iteration loads again.
-/

namespace AesCore.TestProgram

open AesEnv Fips197 GoldenModel Scoreboard

/-- The key that `temp_key` holds. With `SINGLE_KEY` it replaces the key of every
transaction after the warm-up. -/
def tempKey : Block := 0x87fac3501987124a34bc7dff761a309c#128

/-- The values of a new transaction object, before anything is drawn: all are zero. -/
def newTransaction : Transaction := ⟨false, false, 0#128, zeros⟩

/-- The weight of a value under `density_dist`. The density is that of the value one, and
the rest of one hundred is that of zero. -/
def weight (density : Int) (value : Bool) : Int := if value then density else 100 - density

/-- The constraints of `aes_transaction` on a draw: both bits have a positive weight, and
there is no load while the status is not zero. -/
structure Satisfies (ldDensity rstDensity status : Int) (t : Transaction) : Prop where
  ld : 0 < weight ldDensity t.ld
  rst : 0 < weight rstDensity t.rst
  ldStatus : status ≠ 0 → t.ld = false

/-- What a play of the test adds to its configuration: the registers of the core at its
start, what each draw leaves in the transaction object, and what `generate_ciphertext`
finds in place of its argument. -/
structure Play where
  start : CipherTop.Registers
  drawn : Nat → Transaction
  argument : Nat → Int

variable (env : Env) (play : Play)

/-- The number of warm-up iterations. A negative number in the file means none. -/
def warmup : Nat := env.warmup.toInt.toNat

/-- The number of all iterations, those of the warm-up included. -/
def iterations : Nat := warmup env + env.maxTransactions.toInt.toNat

/-- The load density of the transaction object in iteration `n`. During the warm-up the
object has the density of its constructor. -/
def ldDensity (n : Nat) : Int := if n < warmup env then 60 else env.ldDensity.toInt

/-- Its reset density. The two phases of the test take theirs from different lines of the
file. -/
def rstDensity (n : Nat) : Int :=
  if n < warmup env then env.warmupRst.toInt else env.resetDensity.toInt

/-- The transaction of iteration `n`, with the constant key if there is one. The program
stops after its last iteration, and nothing is loaded any more. -/
def transaction (n : Nat) : Transaction :=
  if iterations env ≤ n then { newTransaction with rst := true }
  else if warmup env ≤ n ∧ env.singleKey = 1#32 then { play.drawn n with key := tempKey }
  else play.drawn n

/-- The simulation of core and model that the program drives, with the transactions of the
play. -/
def bench : Bench := ⟨play.start, transaction env play, play.argument⟩

/-- The object is new in iteration `n`: before the first one, and again after the warm-up.
Its status is then zero, whatever the model says. -/
def Renewed (n : Nat) : Prop := n = 0 ∨ n = warmup env

/-- Whether it is new is decided. -/
instance (n : Nat) : Decidable (Renewed env n) :=
  inferInstanceAs (Decidable (n = 0 ∨ n = warmup env))

/-- The status in the object before iteration `n` draws, which the iteration before has read
back. -/
def statusBefore (n : Nat) : Int :=
  if Renewed env n then 0 else ((bench env play).model (n - 1)).status

/-- The values in the object before iteration `n` draws. A draw that fails leaves them as
they are. -/
def before (n : Nat) : Transaction :=
  if Renewed env n then newTransaction else transaction env play (n - 1)

/-- A draw of iteration `n`: any values that satisfy the constraints, or the old ones if
none do. -/
def Draws (n : Nat) : Prop :=
  Satisfies (ldDensity env n) (rstDensity env n) (statusBefore env play n) (play.drawn n) ∨
    (¬ ∃ t, Satisfies (ldDensity env n) (rstDensity env n) (statusBefore env play n) t) ∧
      play.drawn n = before env play n

/-- Every iteration draws. The draws after the last iteration are arbitrary and not used. -/
def Plays : Prop := ∀ n, n < iterations env → Draws env play n

/-- The first iteration in which the checker reports an error, with the error, if there is
one. -/
def report : Option (Nat × CheckError) :=
  (List.range (iterations env)).findSome? fun n =>
    match (bench env play).check n with
    | .ok () => none
    | .error error => some (n, error)

variable {env play}

/-- Before the last iteration the object holds the loads and resets that were drawn. The
constant key replaces the key only. -/
theorem transaction_of_drawn {n : Nat} (inside : n < iterations env) :
    (transaction env play n).ld = (play.drawn n).ld ∧
      (transaction env play n).rst = (play.drawn n).rst := by
  rw [transaction, if_neg (Nat.not_le_of_lt inside)]
  split <;> exact ⟨rfl, rfl⟩

/-- The constraints can be satisfied where those on `ld` can: one of the two values of `rst`
always has a positive weight, and nothing ties it to `ld`. -/
theorem satisfiable {d r status : Int} {ld : Bool} (weighed : 0 < weight d ld)
    (kept : status ≠ 0 → ld = false) : ∃ t, Satisfies d r status t := by
  by_cases up : 0 < r
  · exact ⟨⟨true, ld, 0#128, zeros⟩, weighed, by simpa [weight], kept⟩
  · refine ⟨⟨false, ld, 0#128, zeros⟩, weighed, ?_, kept⟩
    simp only [weight, Bool.false_eq_true, ↓reduceIte]
    omega

/-- Where a load is not certain, every draw satisfies the constraints, since one without a
load always does. -/
theorem satisfies_of_plays (plays : Plays env play) {n : Nat} (inside : n < iterations env)
    (loadable : ldDensity env n < 100) :
    Satisfies (ldDensity env n) (rstDensity env n) (statusBefore env play n) (play.drawn n) := by
  rcases plays n inside with satisfied | ⟨none, _⟩
  · exact satisfied
  · have weighed : 0 < weight (ldDensity env n) false := by
      simp only [weight, Bool.false_eq_true, ↓reduceIte]
      omega
    exact absurd (satisfiable weighed fun _ => rfl) none

/-- The warm-up is in reset where its reset density is zero. The density of loads in the
warm-up is sixty, so the draws do not fail. -/
theorem warm_reset (plays : Plays env play) (reset : env.warmupRst = 0#32) {n : Nat}
    (early : n < warmup env) : (transaction env play n).rst = false := by
  have inside : n < iterations env := Nat.lt_of_lt_of_le early (Nat.le_add_right _ _)
  have loadable : ldDensity env n < 100 := by
    rw [ldDensity, if_pos early]
    decide
  have drawn := (satisfies_of_plays plays inside loadable).rst
  rw [rstDensity, if_pos early, reset] at drawn
  rw [(transaction_of_drawn inside).2]
  cases up : (play.drawn n).rst with
  | false => rfl
  | true => exact absurd (up ▸ drawn) (by decide)

/-- Nothing is reported exactly if the checker is silent in every iteration, which it is
where core and model agree. -/
theorem report_none_iff (env : Env) (play : Play) :
    report env play = none ↔ ∀ n, n < iterations env → (bench env play).Agrees n := by
  rw [report, List.findSome?_eq_none_iff]
  constructor
  · intro silent n inside
    have quiet := silent n (List.mem_range.mpr inside)
    apply (Bench.check_iff _ n).mp
    cases checked : (bench env play).check n with
    | ok _ => rfl
    | error error => rw [checked] at quiet; exact absurd quiet (by simp)
  · intro agrees n member
    rw [(Bench.check_iff _ n).mpr (agrees n (List.mem_range.mp member))]

/-- At full load density every iteration after the warm-up loads: the first one must, and
each later draw has no choice that satisfies its constraints, so that the object keeps the
load. -/
theorem loads_at_full (plays : Plays env play) (full : 100 ≤ env.ldDensity.toInt) {n : Nat}
    (later : warmup env ≤ n)
    (inside : n < iterations env) : (transaction env play n).ld = true := by
  have density (m : Nat) (from' : warmup env ≤ m) : ldDensity env m = env.ldDensity.toInt :=
    if_neg (Nat.not_lt_of_le from')
  induction n, later using Nat.le_induction with
  | base =>
    rw [(transaction_of_drawn inside).1]
    have status : statusBefore env play (warmup env) = 0 := if_pos (Or.inr rfl)
    rcases plays _ inside with satisfied | ⟨none, _⟩
    · have drawn := satisfied.ld
      rw [density _ (Nat.le_refl _)] at drawn
      cases loaded : (play.drawn (warmup env)).ld with
      | true => rfl
      | false =>
        rw [loaded] at drawn
        simp only [weight, Bool.false_eq_true, ↓reduceIte] at drawn
        omega
    · have weighed : 0 < weight (ldDensity env (warmup env)) true := by
        rw [density _ (Nat.le_refl _)]
        simp only [weight, ↓reduceIte]
        omega
      exact absurd (satisfiable weighed fun counting => absurd status counting) none
  | succ n later inductionHypothesis =>
    have loaded := inductionHypothesis (by omega)
    have kept : ¬Renewed env (n + 1) := by
      rintro (zero | new) <;> omega
    have counting : ((bench env play).model n).status = 1 :=
      ((outcome_status play.argument n).2 0 (Nat.zero_le 13)).mpr loaded
    have status : statusBefore env play (n + 1) ≠ 0 := by
      rw [statusBefore, if_neg kept, Nat.add_sub_cancel, counting]
      decide
    rcases plays _ inside with satisfied | ⟨_, held⟩
    · have drawn := satisfied.ld
      rw [density _ (by omega), satisfied.ldStatus status] at drawn
      simp only [weight, Bool.false_eq_true, ↓reduceIte] at drawn
      omega
    · rw [(transaction_of_drawn inside).1, held, before, if_neg kept, Nat.add_sub_cancel]
      exact loaded

/-- A test at full load density checks nothing: it reports no error, and there is no
iteration in which the core completes or the checker compares a text. A load in every
iteration starts core and model again and again. Only `done` must be clear at the start,
since nothing has been sampled by then. -/
theorem full_density_silent (plays : Plays env play) (warm : 0 < warmup env)
    (reset : env.warmupRst = 0#32) (full : 100 ≤ env.ldDensity.toInt)
    (idle : play.start.done = false) : report env play = none ∧ ∀ n, n < iterations env →
      ((bench env play).dut n).done = false ∧ ((bench env play).model n).status ≠ 14 := by
  have loaded (m : Nat) (inside : m + 1 < iterations env) (up : (transaction env play m).rst = true) :
      (transaction env play (m + 1)).ld = true := by
    refine loads_at_full plays full ?_ inside
    by_contra early
    exact Bool.false_ne_true ((warm_reset plays reset (by omega)).symm.trans up)
  have none (n : Nat) (inside : n < iterations env) :
      ¬ Clocked.Since (Loads (transaction env play)) (Counts (transaction env play)) 13 (n + 1) := by
    intro since
    obtain ⟨m, same, _, counts⟩ := Clocked.since_iff.mp since
    have next := counts (m + 1) (by omega) (by omega)
    exact Bool.false_ne_true (next.1.symm.trans (loaded m (by omega) next.2))
  have done (n : Nat) (inside : n < iterations env) : ((bench env play).dut n).done = false := by
    by_cases early : n < 2
    · rw [Bench.dut, show n - 1 = 0 by omega]
      exact idle
    · refine Bool.eq_false_iff.mpr fun completed => ?_
      obtain ⟨m, same, ⟨up, _⟩, quiet⟩ := (Bench.dut_done_iff (b := bench env play)
        (warm_reset plays reset warm) (by omega)).mp completed
      exact Bool.false_ne_true ((quiet (m + 1) (by omega) (by omega)).2.symm.trans
        (loaded m (by omega) up))
  refine ⟨(report_none_iff env play).mpr fun n inside =>
    Bench.agrees_of_idle (done n inside) (none n inside), fun n inside =>
    ⟨done n inside, fun complete => none n inside ?_⟩⟩
  exact ((outcome_status play.argument n).2 13 (Nat.le_refl 13)).mp complete

/-- A configuration with full load density, and a warm-up of ten iterations in reset. -/
def fullEnv : Env := ⟨1000#32, 10#32, 0#32, true, 100#32, 100#32, 0#32, 0#32, none⟩

/-- A play that loads in every iteration after the warm-up, without another reset. -/
def fullPlay : Play where
  start := default
  drawn n := ⟨decide (10 ≤ n), decide (10 ≤ n), 0#128, zeros⟩
  argument _ := 1

/-- That play is possible: from the second load on, no draw is, and the object keeps its
values. -/
theorem full_plays : Plays fullEnv fullPlay := by
  intro n inside
  by_cases early : n < 10
  · left
    refine ⟨?_, ?_, fun _ => decide_eq_false (Nat.not_le_of_lt early)⟩
    · change 0 < weight (if n < 10 then 60 else 100) (decide (10 ≤ n))
      simp [early, weight, Nat.not_le_of_lt early]
    · change 0 < weight (if n < 10 then 0 else 100) (decide (10 ≤ n))
      simp [early, weight, Nat.not_le_of_lt early]
  · by_cases first : n = 10
    · subst first
      exact Or.inl ⟨by decide, by decide, fun counting => absurd rfl counting⟩
    · right
      obtain ⟨n, rfl⟩ : ∃ m, n = m + 1 := ⟨n - 1, by omega⟩
      have kept : ¬Renewed fullEnv (n + 1) := by
        rintro (zero | new)
        · exact absurd zero (Nat.succ_ne_zero n)
        · exact first new
      have earlier : transaction fullEnv fullPlay n = fullPlay.drawn n := by
        rw [transaction, if_neg (by omega)]
        exact if_neg fun constant => absurd constant.2 (by decide)
      have late : 10 ≤ n := by omega
      have loaded : (transaction fullEnv fullPlay n).ld = true := by
        rw [earlier]
        exact decide_eq_true late
      have counting : ((bench fullEnv fullPlay).model n).status = 1 :=
        ((outcome_status fullPlay.argument n).2 0 (Nat.zero_le 13)).mpr loaded
      have status : statusBefore fullEnv fullPlay (n + 1) ≠ 0 := by
        rw [statusBefore, if_neg kept, Nat.add_sub_cancel, counting]
        decide
      constructor
      · rintro ⟨t, satisfied⟩
        have drawn := satisfied.ld
        rw [satisfied.ldStatus status, ldDensity, if_neg (show ¬n + 1 < warmup fullEnv from early)]
          at drawn
        exact absurd drawn (by decide)
      · rw [before, if_neg kept, Nat.add_sub_cancel, earlier]
        simp [fullPlay, late, Nat.le_succ_of_le late]

/-- It reports nothing and nothing completes, in any of its thousand and ten iterations. -/
theorem full_density_silent_play : report fullEnv fullPlay = none ∧ ∀ n, n < iterations fullEnv →
    ((bench fullEnv fullPlay).dut n).done = false ∧
      ((bench fullEnv fullPlay).model n).status ≠ 14 :=
  full_density_silent full_plays (by decide) rfl (by decide) rfl

end AesCore.TestProgram
