import AesCore.RoundTrip

/-!
# The known-answer bench

The process of `test_bench_top.v` resets the two wired cores, waits, and then runs
through its vectors: it loads one, waits for the ciphertext and compares it, waits
for the recovered plaintext and compares that, and goes on to the next. It waits for
`done` and `done2` and counts no clocks, so how long it takes and whether it ends at
all is up to the cores.

Bench and cores form a closed loop. The loop is cut at the bench: the moves expected
of it, one vector every twenty-seven clocks, drive the wired cores in a way whose
completions are known, and these are the completions that the moves wait for. The
verdict follows for any list of vectors.
-/

namespace AesCore.VectorBench

open Fips197

/-- An element of `tv`, a key, a plaintext and a ciphertext side by side. -/
abbrev TestVector := BitVec 384

/-- The key of a vector, the bits `tmp[383:256]`. -/
def key (tmp : TestVector) : Block := tmp.extractLsb 383 256

/-- The wire `plain`, the bits `tmp[255:128]`, which are also driven as the text. -/
def plain (tmp : TestVector) : Block := tmp.extractLsb 255 128

/-- The wire `ciph`, the bits `tmp[127:0]`. Nothing makes them the ciphertext that the
standard prescribes; that is what the bench is there to find out. -/
def ciph (tmp : TestVector) : Block := tmp.extractLsb 127 0

/-- The event control at which the process waits for the next rising edge. Between two of
them it does all it does at one edge. -/
inductive Position where
  /-- `repeat(4)` before `rst = 1`, after `k` of the edges. -/
  | reset (k : Nat)
  /-- `repeat(20)` after it. -/
  | settle (k : Nat)
  /-- Before `kld = 1`. -/
  | arm
  /-- Before `kld = 0`. -/
  | pulse
  /-- Before or in the first `while`. -/
  | awaitDone
  /-- In the second `while`. -/
  | awaitDone2
  /-- At the end of the loop body. -/
  | gap
  /-- `repeat(10)` after the summary. -/
  | drain (k : Nat)
  /-- Past `$finish`. -/
  | finished
  deriving DecidableEq

/-- The process with its variables: the index of the vector and the number of errors so
far. -/
structure Process where
  position : Position
  n : Nat
  errorCnt : Nat
  deriving DecidableEq

/-- The process at the start, before the first edge of the reset. -/
def initial : Process := ⟨.reset 0, 0, 0⟩

section Process
variable (tv : List TestVector)

/-- The wire `tmp`, the vector at the index. Past the end of the list it is zero, and nobody
looks at it there. -/
def tmp (n : Nat) : TestVector := tv.getD n 0#384

/-- The head of the `for` loop, which goes on with the vector at the index or leaves the
loop. -/
def loopHead (s : Process) : Process :=
  { s with position := if s.n < tv.length then .arm else .drain 0 }

/-- A comparison: a mismatch is counted, and the process goes on in either case. -/
def compare (expected got : Block) (s : Process) : Process :=
  if got != expected then { s with errorCnt := s.errorCnt + 1 } else s

/-- The second `while` and the comparison after it, which is reached in the edge at which
`done2` is set. -/
def whileDone2 (dut : RoundTrip.Registers) (s : Process) : Process :=
  if !dut.u1.done then { s with position := .awaitDone2 }
  else { compare (plain (tmp tv s.n)) dut.u1.textOut s with position := .gap }

/-- The first `while` and what follows it up to the next wait. If `done2` were set together
with `done`, both comparisons would fall on one edge. -/
def whileDone (dut : RoundTrip.Registers) (s : Process) : Process :=
  if !dut.u0.done then { s with position := .awaitDone }
  else whileDone2 tv dut (compare (ciph (tmp tv s.n)) dut.u0.textOut s)

/-- What the process does at a rising edge, from the outputs just before it. The cores
sample at the same edge what the process has driven since the edge before. -/
def tick (s : Process) (dut : RoundTrip.Registers) : Process :=
  match s.position with
  | .reset k => { s with position := if k + 1 < 4 then .reset (k + 1) else .settle 0 }
  | .settle k => if k + 1 < 20 then { s with position := .settle (k + 1) } else loopHead tv s
  | .arm => { s with position := .pulse }
  | .pulse => { s with position := .awaitDone }
  | .awaitDone => whileDone tv dut s
  | .awaitDone2 => whileDone2 tv dut s
  | .gap => loopHead tv { s with n := s.n + 1 }
  | .drain k => { s with position := if k + 1 < 10 then .drain (k + 1) else .finished }
  | .finished => s

end Process

/-- The process makes its second comparison at this edge: it waits for the recovered
plaintext, or has just seen the ciphertext, and finds `done2` set. -/
def ComparesPlain (s : Process) (dut : RoundTrip.Registers) : Prop :=
  (s.position = .awaitDone2 ∨ s.position = .awaitDone ∧ dut.u0.done = true) ∧ dut.u1.done = true

/-- This comparison, and nothing else, takes the process to the end of the loop body. -/
theorem tick_gap_iff (tv : List TestVector) (s : Process) (dut : RoundTrip.Registers) :
    (tick tv s dut).position = .gap ↔ ComparesPlain s dut := by
  obtain ⟨position, n, errorCnt⟩ := s
  cases position with
  | reset k => by_cases last : k + 1 < 4 <;> simp [tick, ComparesPlain, last]
  | settle k =>
    by_cases last : k + 1 < 20 <;> by_cases more : n < tv.length <;>
      simp [tick, ComparesPlain, loopHead, last, more]
  | arm | pulse | finished => simp [tick, ComparesPlain]
  | awaitDone =>
    cases done : dut.u0.done <;> cases done2 : dut.u1.done <;>
      simp [tick, ComparesPlain, whileDone, whileDone2, done, done2]
  | awaitDone2 =>
    cases done2 : dut.u1.done <;> simp [tick, ComparesPlain, whileDone2, done2]
  | gap => by_cases more : n + 1 < tv.length <;> simp [tick, ComparesPlain, loopHead, more]
  | drain k => by_cases last : k + 1 < 10 <;> simp [tick, ComparesPlain, last]

/-- What the language leaves open: the registers at the start, which value of `rst` the cores
sample at the edge that changes it, the values of `key` and `text_in` while `kld` is zero, and
reads past the end of the key buffer. -/
structure Setting where
  start : RoundTrip.Registers
  race : Bool
  undriven : Nat → Block × Block
  outside : Nat → Block

/-- The signals that the process drives while it waits. Only at the pulse do the key and the
text have defined values. -/
def Setting.drive (setting : Setting) (tv : List TestVector) (n : Nat) (s : Process) :
    RoundTrip.Inputs where
  rst :=
    match s.position with
    | .reset k => k == 3 && setting.race
    | _ => true
  kld := s.position == .pulse
  key := if s.position == .pulse then key (tmp tv s.n) else (setting.undriven n).1
  textIn := if s.position == .pulse then plain (tmp tv s.n) else (setting.undriven n).2

/-- Process and cores before each clock, each of them reading what the other one drives. -/
def Setting.loop (setting : Setting) (tv : List TestVector) : Nat → Process × RoundTrip.Registers :=
  Clocked.run (fun n loop => (tick tv loop.1 loop.2,
    RoundTrip.step loop.2 (setting.drive tv n loop.1) (setting.outside n))) (initial, setting.start)

/-!
## The expected moves
-/

/-- Vectors whose ciphertext is not the one that the standard prescribes. A bench that works
counts just these. -/
def wrong (tmp : TestVector) : Bool := cipher (key tmp) (plain tmp) != ciph tmp

/-- The number of wrong vectors among the first `v`, which is what the process should have
counted when it has compared these. -/
def errors (tv : List TestVector) (v : Nat) : Nat := (tv.take v).countP wrong

/-- The wait that covers clock `p` of the twenty-seven that a vector takes: two to load it,
twelve up to the ciphertext, twelve up to the plaintext, and one between vectors. -/
def wait (p : Nat) : Position :=
  if p = 0 then .arm
  else if p = 1 then .pulse
  else if p < 14 then .awaitDone
  else if p < 26 then .awaitDone2
  else .gap

/-- The process at clock `p` of vector `v`. The vector is counted as soon as its ciphertext
has been compared. -/
def during (tv : List TestVector) (v p : Nat) : Process :=
  ⟨wait p, v, errors tv (if p < 14 then v else v + 1)⟩

/-- The process `k` clocks after the last vector: ten clocks of waiting, and then past the
end. -/
def after (tv : List TestVector) (k : Nat) : Process :=
  ⟨if k < 10 then .drain k else .finished, tv.length, errors tv tv.length⟩

/-- The process at clock `n`, as far as the cores complete when they should. It does not
look at the cores. -/
def expected (tv : List TestVector) (n : Nat) : Process :=
  if n < 4 then { initial with position := .reset n }
  else if n < 24 then { initial with position := .settle (n - 4) }
  else if (n - 24) / 27 < tv.length then during tv ((n - 24) / 27) ((n - 24) % 27)
  else after tv (n - 24 - 27 * tv.length)

/-- The cores under the expected moves. This is a run of the two wired cores, of which the
completions are known. -/
def Setting.wired (setting : Setting) (tv : List TestVector) : RoundTrip.Run where
  start := setting.start
  inputs n := setting.drive tv n (expected tv n)
  outside := setting.outside

variable {tv : List TestVector}

/-- At clock `p` of a vector the process is where it should be. The number of the vector and
the clock in it are a quotient and a remainder by twenty-seven. -/
theorem expected_during {v p : Nat} (inside : v < tv.length) (bounded : p < 27) :
    expected tv (24 + 27 * v + p) = during tv v p := by
  have early : ¬ 24 + 27 * v + p < 4 := by omega
  have waiting : ¬ 24 + 27 * v + p < 24 := by omega
  have number : (24 + 27 * v + p - 24) / 27 = v := by omega
  have clock : (24 + 27 * v + p - 24) % 27 = p := by omega
  rw [expected, if_neg early, if_neg waiting, number, clock, if_pos inside]

/-- After the last vector the process is where it should be, for every clock that
follows. -/
theorem expected_after (tv : List TestVector) (k : Nat) :
    expected tv (24 + 27 * tv.length + k) = after tv k := by
  have early : ¬ 24 + 27 * tv.length + k < 4 := by omega
  have waiting : ¬ 24 + 27 * tv.length + k < 24 := by omega
  have number : ¬ (24 + 27 * tv.length + k - 24) / 27 < tv.length := by omega
  have clock : 24 + 27 * tv.length + k - 24 - 27 * tv.length = k := by omega
  rw [expected, if_neg early, if_neg waiting, if_neg number, clock]

/-- Every clock belongs to the start, to a vector or to the end. Proofs about the process
take these three cases. -/
theorem clock_cases (tv : List TestVector) (n : Nat) :
    n < 24 ∨ (∃ v p, v < tv.length ∧ p < 27 ∧ n = 24 + 27 * v + p) ∨
      ∃ k, n = 24 + 27 * tv.length + k := by
  rcases Nat.lt_or_ge n 24 with early | later
  · exact Or.inl early
  · rcases Nat.lt_or_ge n (24 + 27 * tv.length) with before | past
    · exact Or.inr (Or.inl ⟨(n - 24) / 27, (n - 24) % 27, by omega, by omega, by omega⟩)
    · exact Or.inr (Or.inr ⟨n - (24 + 27 * tv.length), by omega⟩)

/-- Before the first vector the process resets and waits, four clocks and twenty. -/
theorem expected_early (tv : List TestVector) {n : Nat} (early : n < 24) : expected tv n =
    { initial with position := if n < 4 then .reset n else .settle (n - 4) } := by
  by_cases resetting : n < 4
  · rw [expected, if_pos resetting, if_pos resetting]
  · rw [expected, if_neg resetting, if_pos early, if_neg resetting]

/-- Clock 1 of a vector is the only one that pulses, and with it the only one that loads the
cores. -/
theorem wait_pulse_iff (p : Nat) : wait p = .pulse ↔ p = 1 := by
  simp only [wait]
  split_ifs <;> simp_all

/-- The cores are pulsed at clock 1 of each vector and at no other time, neither before the
first vector nor after the last. -/
theorem pulse_iff (tv : List TestVector) (n : Nat) :
    (expected tv n).position = .pulse ↔ ∃ v, v < tv.length ∧ n = 24 + 27 * v + 1 := by
  rcases clock_cases tv n with early | ⟨v, p, inside, bounded, rfl⟩ | ⟨k, rfl⟩
  · rw [expected_early tv early]
    constructor
    · intro pulsed
      by_cases resetting : n < 4 <;> simp [resetting] at pulsed
    · rintro ⟨v, _, rfl⟩
      omega
  · rw [expected_during inside bounded, during, wait_pulse_iff]
    constructor
    · rintro rfl
      exact ⟨v, inside, rfl⟩
    · rintro ⟨u, _, same⟩
      omega
  · rw [expected_after]
    constructor
    · intro pulsed
      by_cases draining : k < 10 <;> simp [after, draining] at pulsed
    · rintro ⟨v, inside, same⟩
      omega

/-- The first clock without reset. The edge that changes `rst` sees either value, as the
race is decided. -/
def Setting.first (setting : Setting) : Nat := if setting.race then 3 else 4

/-- Outside the first wait the process holds `rst` at one. -/
theorem drive_running (setting : Setting) (tv : List TestVector) (n : Nat) {s : Process}
    (waits : ∀ k, s.position ≠ .reset k) : (setting.drive tv n s).rst = true := by
  rw [Setting.drive]
  split
  · exact absurd ‹_› (waits _)
  · rfl

/-- After four clocks the process does not wait for the end of the reset any more, and it
never comes back to it. -/
theorem expected_running (tv : List TestVector) {n : Nat} (later : 4 ≤ n) (k : Nat) :
    (expected tv n).position ≠ .reset k := by
  rcases clock_cases tv n with early | ⟨v, p, inside, bounded, rfl⟩ | ⟨j, rfl⟩
  · rw [expected_early tv early, if_neg (Nat.not_lt_of_le later)]
    exact Position.noConfusion
  · rw [expected_during inside bounded]
    simp only [during, wait]
    split_ifs <;> exact Position.noConfusion
  · rw [expected_after]
    simp only [after]
    split_ifs <;> exact Position.noConfusion

/-- The cores are reset up to that clock and not afterwards. At the last edge of the first
wait it is the race that decides. -/
theorem wired_reset (setting : Setting) (tv : List TestVector) (n : Nat) :
    ((setting.wired tv).inputs n).rst = decide (setting.first ≤ n) := by
  rcases Nat.lt_or_ge n 4 with resetting | later
  · have early := expected_early tv (show n < 24 by omega)
    rw [if_pos resetting] at early
    change (setting.drive tv n (expected tv n)).rst = _
    rw [early, Setting.drive, Setting.first, Bool.eq_iff_iff]
    cases setting.race <;> simp <;> omega
  · have running := drive_running setting tv n (expected_running tv later)
    refine running.trans (decide_eq_true ?_).symm
    rw [Setting.first]
    split <;> omega

/-- A pulse of the wired cores belongs to a vector and comes at its clock 1. -/
theorem wired_kld (setting : Setting) (tv : List TestVector) (n : Nat) :
    ((setting.wired tv).inputs n).kld = true ↔ ∃ v, v < tv.length ∧ n = 24 + 27 * v + 1 := by
  rw [← pulse_iff]
  exact beq_iff_eq

/-- The pulses leave the wired cores the room they need: they are twenty-seven clocks apart,
and twenty-one would be enough. -/
theorem wired_pulsed (setting : Setting) (tv : List TestVector) :
    (setting.wired tv).Pulsed setting.first where
  two := by
    rw [Setting.first]
    split <;> omega
  reset := wired_reset setting tv
  apart t n _ pulse later close := by
    obtain ⟨v, _, rfl⟩ := (wired_kld setting tv t).mp pulse
    refine Bool.eq_false_iff.mpr fun again => ?_
    obtain ⟨u, _, rfl⟩ := (wired_kld setting tv n).mp again
    omega

/-!
## The moves are justified
-/

/-- What the process reads at clock `p` of vector `v`: `done` at clock 13 with the
ciphertext, and `done2` at clock 25 with the plaintext. -/
structure Observed (tv : List TestVector) (v p : Nat) (dut : RoundTrip.Registers) : Prop where
  done : dut.u0.done = decide (p = 13)
  done2 : dut.u1.done = decide (p = 25)
  text : p = 13 → dut.u0.textOut = cipher (key (tmp tv v)) (plain (tmp tv v))
  text2 : p = 25 → dut.u1.textOut = plain (tmp tv v)

/-- A pulse lies `d` clocks before clock `p` of a vector only where it is the pulse of that
vector, as long as `d` does not reach back to the vector before. -/
theorem pulse_before (setting : Setting) {v p d : Nat} (inside : v < tv.length) (bounded : p < 27)
    (near : d < 26) :
    (∃ t, setting.first ≤ t ∧ ((setting.wired tv).inputs t).kld = true ∧
      24 + 27 * v + p = t + d) ↔ p = d + 1 := by
  constructor
  · rintro ⟨t, _, pulse, same⟩
    obtain ⟨u, _, rfl⟩ := (wired_kld setting tv t).mp pulse
    omega
  · rintro rfl
    refine ⟨24 + 27 * v + 1, ?_, (wired_kld setting tv _).mpr ⟨v, inside, rfl⟩, by omega⟩
    rw [Setting.first]
    split <;> omega

/-- The wired cores complete where the process expects it. Twelve and twenty-four clocks
after the pulse are clocks 13 and 25 of its vector. -/
theorem wired_observed (setting : Setting) {v p : Nat} (inside : v < tv.length) (bounded : p < 27) :
    Observed tv v p ((setting.wired tv).state (24 + 27 * v + p)) := by
  have pulsed := wired_pulsed setting tv
  have later (j : Nat) : setting.first ≤ 24 + 27 * v + j := by
    rw [Setting.first]
    split <;> omega
  have pulse := (wired_kld setting tv (24 + 27 * v + 1)).mpr ⟨v, inside, rfl⟩
  have driven : (setting.wired tv).inputs (24 + 27 * v + 1) =
      setting.drive tv (24 + 27 * v + 1) (during tv v 1) :=
    congrArg (setting.drive tv _) (expected_during inside (by decide))
  constructor
  · rw [Bool.eq_iff_iff, decide_eq_true_iff, RoundTrip.cipher_done pulsed (later p)]
    exact pulse_before setting inside bounded (by decide)
  · rw [Bool.eq_iff_iff, decide_eq_true_iff, RoundTrip.decipher_done pulsed (later p)]
    exact pulse_before setting inside bounded (by decide)
  · rintro rfl
    refine (RoundTrip.cipher_text pulsed (later 1) pulse).trans ?_
    rw [driven]
    rfl
  · rintro rfl
    refine (RoundTrip.decipher_text pulsed (later 1) pulse).trans ?_
    rw [driven]
    rfl

/-- A vector that has been compared counts if it is wrong. This is the step from one vector
to the next. -/
theorem errors_succ {v : Nat} (inside : v < tv.length) :
    errors tv (v + 1) = errors tv v + if wrong (tmp tv v) then 1 else 0 := by
  have entry : tmp tv v = tv[v] := by simp [tmp, inside]
  rw [errors, List.take_succ_eq_append_getElem inside, List.countP_append, ← errors, entry]
  simp

/-- The head of the loop goes on with the next vector or leaves the loop, as expected. -/
theorem loop_head_expected (tv : List TestVector) {v : Nat} (inside : v ≤ tv.length)
    (position : Position) :
    loopHead tv ⟨position, v, errors tv v⟩ = expected tv (24 + 27 * v) := by
  rcases Nat.lt_or_eq_of_le inside with more | rfl
  · have next := expected_during more (p := 0) (by decide)
    rw [Nat.add_zero] at next
    rw [next, loopHead, if_pos more]
    rfl
  · have next := expected_after tv 0
    rw [Nat.add_zero] at next
    rw [next, loopHead, if_neg (Nat.lt_irrefl _)]
    rfl

/-- The process during the first `while`, with the errors of the vectors before. -/
theorem during_await_done {v p : Nat} (later : 2 ≤ p) (before : p < 14) :
    during tv v p = ⟨.awaitDone, v, errors tv v⟩ := by
  have armed : ¬ p = 0 := by omega
  have pulsed : ¬ p = 1 := by omega
  rw [during, wait, if_neg armed, if_neg pulsed, if_pos before, if_pos before]

/-- The process during the second `while`, with the error of this vector counted if there is
one. -/
theorem during_await_done2 {v p : Nat} (later : 14 ≤ p) (before : p < 26) :
    during tv v p = ⟨.awaitDone2, v, errors tv (v + 1)⟩ := by
  have armed : ¬ p = 0 := by omega
  have pulsed : ¬ p = 1 := by omega
  have done : ¬ p < 14 := by omega
  rw [during, wait, if_neg armed, if_neg pulsed, if_neg done, if_pos before, if_neg done]

/-- A comparison with the ciphertext counts a wrong vector, since the text that is compared
is the one that the standard prescribes. -/
theorem compare_ciph {v : Nat} (inside : v < tv.length) (position : Position) :
    compare (ciph (tmp tv v)) (cipher (key (tmp tv v)) (plain (tmp tv v)))
      ⟨position, v, errors tv v⟩ = ⟨position, v, errors tv (v + 1)⟩ := by
  rw [errors_succ inside]
  change (if wrong (tmp tv v) then _ else _) = _
  cases wrong (tmp tv v) <;> rfl

/-- From clock `p` of a vector the process moves to the next clock of it, or to the next
vector. It waits until the cores complete, and they complete at the clocks where the
expected wait ends. -/
theorem tick_during {dut : RoundTrip.Registers} {v p : Nat} (inside : v < tv.length)
    (bounded : p < 27) (observed : Observed tv v p dut) :
    tick tv (during tv v p) dut = expected tv (24 + 27 * v + p + 1) := by
  obtain ⟨done, done2, text, text2⟩ := observed
  by_cases last : p = 26
  · subst last
    exact loop_head_expected tv (Nat.succ_le_of_lt inside) .gap
  rw [Nat.add_assoc, expected_during inside (by omega)]
  rcases Nat.lt_or_ge p 2 with driving | waiting
  · obtain rfl | rfl : p = 0 ∨ p = 1 := by omega
    · rfl
    · rfl
  rcases Nat.lt_trichotomy p 13 with before | rfl | later
  · rw [decide_eq_false (by omega)] at done
    rw [during_await_done waiting (by omega), during_await_done (by omega) (by omega)]
    simp only [tick, whileDone, done, Bool.not_false, ↓reduceIte]
  · have compared := compare_ciph inside .awaitDone
    rw [during_await_done waiting (by decide), during_await_done2 (by decide) (by decide)]
    simp only [tick, whileDone, whileDone2, done, done2, text, decide_true, Bool.not_true,
      Bool.false_eq_true, ↓reduceIte, compared, Nat.reduceEqDiff, decide_false, Bool.not_false]
  · rw [during_await_done2 (by omega) (by omega)]
    by_cases final : p = 25
    · subst final
      simp only [tick, whileDone2, done2, text2, compare, decide_true, Bool.not_true,
        Bool.false_eq_true, ↓reduceIte, bne_self_eq_false]
      rfl
    · rw [decide_eq_false final] at done2
      rw [during_await_done2 (by omega) (by omega)]
      simp only [tick, whileDone2, done2, Bool.not_false, ↓reduceIte]

/-- The process leaves the reset and the wait that follows it after their clocks, whatever
the cores show. -/
theorem tick_early (tv : List TestVector) {n : Nat} (early : n < 24) (dut : RoundTrip.Registers) :
    tick tv (expected tv n) dut = expected tv (n + 1) := by
  by_cases last : n = 23
  · subst last
    exact loop_head_expected tv (Nat.zero_le _) (.settle 19)
  rw [expected_early tv early, expected_early tv (show n + 1 < 24 by omega)]
  rcases Nat.lt_trichotomy n 3 with resetting | rfl | settling
  · rw [if_pos (by omega), if_pos (by omega)]
    simp only [tick, if_pos (show n + 1 < 4 by omega)]
  · rfl
  · rw [if_neg (by omega), if_neg (by omega)]
    simp only [tick, if_pos (show n - 4 + 1 < 20 by omega), show n + 1 - 4 = n - 4 + 1 by omega]

/-- The process finishes ten clocks after the last vector and stays there, whatever the
cores show. -/
theorem tick_after (tv : List TestVector) (k : Nat) (dut : RoundTrip.Registers) :
    tick tv (after tv k) dut = after tv (k + 1) := by
  rcases Nat.lt_trichotomy k 9 with draining | rfl | finished
  · have drain : after tv k = ⟨.drain k, tv.length, errors tv tv.length⟩ := by
      rw [after, if_pos (by omega)]
    rw [drain, after, if_pos (by omega)]
    simp only [tick, if_pos (show k + 1 < 10 by omega)]
  · rfl
  · rw [after, after, if_neg (by omega), if_neg (by omega)]
    rfl

/-- The expected moves are those that the process makes against the wired cores. So the loop
of the two takes these moves. -/
theorem tick_expected (setting : Setting) (tv : List TestVector) (n : Nat) :
    tick tv (expected tv n) ((setting.wired tv).state n) = expected tv (n + 1) := by
  rcases clock_cases tv n with early | ⟨v, p, inside, bounded, rfl⟩ | ⟨k, rfl⟩
  · exact tick_early tv early _
  · rw [expected_during inside bounded]
    exact tick_during inside bounded (wired_observed setting inside bounded)
  · rw [expected_after, tick_after, ← expected_after]
    rfl

/-- The loop of process and cores takes the expected moves, and the cores in it are the
wired ones. -/
theorem loop_expected (setting : Setting) (tv : List TestVector) (n : Nat) :
    setting.loop tv n = (expected tv n, (setting.wired tv).state n) :=
  @Clocked.run_closed RoundTrip.Registers Process
    (fun n dut s => RoundTrip.step dut (setting.drive tv n s) (setting.outside n))
    (fun _ s dut => tick tv s dut) (expected tv) setting.start (tick_expected setting tv) n

/-- The process is past `$finish` from ten clocks after the last vector on, and not
before. -/
theorem finished_iff (tv : List TestVector) (n : Nat) :
    (expected tv n).position = .finished ↔ 34 + 27 * tv.length ≤ n := by
  rcases clock_cases tv n with early | ⟨v, p, inside, bounded, rfl⟩ | ⟨k, rfl⟩
  · have unfinished : (expected tv n).position ≠ .finished := by
      rw [expected_early tv early]
      by_cases resetting : n < 4 <;> simp [resetting]
    constructor
    · exact fun finished => absurd finished unfinished
    · intro later
      omega
  · have unfinished : (expected tv (24 + 27 * v + p)).position ≠ .finished := by
      rw [expected_during inside bounded]
      simp only [during, wait]
      split_ifs <;> exact Position.noConfusion
    constructor
    · exact fun finished => absurd finished unfinished
    · intro later
      omega
  · rw [expected_after]
    by_cases draining : k < 10
    · simp [after, draining]
      omega
    · simp [after, draining]
      omega

/-- Wherever the process makes its second comparison, the wired decipher shows the plaintext
of the vector. Outside the vectors it makes none, and within one the decipher is done in
the single clock in which the process reads the text. -/
theorem plain_recovered (setting : Setting) (tv : List TestVector) {n : Nat}
    (compares : ComparesPlain (expected tv n) ((setting.wired tv).state n)) :
    ((setting.wired tv).state n).u1.textOut = plain (tmp tv (expected tv n).n) := by
  obtain ⟨waits, done2⟩ := compares
  rcases clock_cases tv n with early | ⟨v, p, inside, bounded, rfl⟩ | ⟨k, rfl⟩
  · rw [expected_early tv early] at waits
    by_cases resetting : n < 4 <;> simp [resetting] at waits
  · have observed := wired_observed setting inside bounded
    have last : p = 25 := of_decide_eq_true (observed.done2.symm.trans done2)
    rw [expected_during inside bounded]
    exact observed.text2 last
  · rw [expected_after] at waits
    by_cases draining : k < 10 <;> simp [after, draining] at waits

/-- The verdict of the bench. Whatever the cores held, however the race at the end of the
reset is decided and whatever the undriven inputs carry, the process finishes after
`34 + 27 * tv.length` clocks and not before, and the errors it has then counted are the
vectors whose ciphertext is not the one that the standard prescribes. The comparison of the
recovered plaintext never adds one, since it always finds the plaintext of its vector. -/
theorem verdict (setting : Setting) (tv : List TestVector) (n : Nat) :
    ((setting.loop tv n).1.position = .finished ↔ 34 + 27 * tv.length ≤ n) ∧
      ((setting.loop tv n).1.position = .finished →
        (setting.loop tv n).1.errorCnt =
          tv.countP fun v => cipher (key v) (plain v) != ciph v) ∧
      (ComparesPlain (setting.loop tv n).1 (setting.loop tv n).2 →
        (setting.loop tv n).2.u1.textOut = plain (tmp tv (setting.loop tv n).1.n)) := by
  rw [loop_expected]
  refine ⟨finished_iff tv n, fun finished => ?_, plain_recovered setting tv⟩
  obtain ⟨k, rfl⟩ : ∃ k, n = 24 + 27 * tv.length + k :=
    ⟨n - (24 + 27 * tv.length), by have := (finished_iff tv n).mp finished; omega⟩
  change (expected tv _).errorCnt = _
  rw [expected_after, after, errors, List.take_length]
  rfl

/-- The first vector of the bench, and one whose ciphertext is off by one bit. -/
def sample : List TestVector :=
  [0x00000000000000000000000000000000f34481ec3cc627bacd5dc3fb08f273e60336763e966d92595a567cc9ce537f5e#384,
   0x00000000000000000000000000000000f34481ec3cc627bacd5dc3fb08f273e60336763e966d92595a567cc9ce537f5f#384]

/-- Cores with cleared registers that see the end of the reset at the edge that makes it. -/
def raced : Setting := ⟨default, true, fun _ => (0#128, 0#128), fun _ => 0#128⟩

/-- The bench finishes after 88 clocks and has found the wrong one of the two. -/
theorem verdict_sample :
    (raced.loop sample 88).1.position = .finished ∧ (raced.loop sample 88).1.errorCnt = 1 := by
  obtain ⟨ends, counts, _⟩ := verdict raced sample 88
  have finished := ends.mpr (by decide)
  refine ⟨finished, (counts finished).trans ?_⟩
  simp only [← CipherTop.encipher_schedule]
  decide +kernel

end AesCore.VectorBench
