import AesCore.CipherRun
import AesCore.GoldenModel

/-!
# The scoreboard

In each iteration the test hands one transaction to the golden model and drives it to
the encryption core, which samples it at the next clock edge. The outputs it reads in
the same iteration are therefore those after the transaction before the last one:
before iteration `n` the core has consumed the transactions up to `n - 2`.

`check_result` compares the two. A load at iteration `m` that nothing disturbs up to
iteration `m + 11` makes the core complete at iteration `m + 13`, and so does the model
unless a reset follows right then: one at iteration `m + 12` still cancels the count,
which the core has finished, and one at iteration `m + 13` still zeroes the answer. In
runs without a reset after the warm-up the two agree in every iteration.
-/

namespace AesCore.Scoreboard

open Fips197
open GoldenModel WordArray

/-- The errors that `check_result` reports. Either ends the simulation, so the first one is
the only one that a run of the test can show. -/
inductive CheckError
  | doneBit
  | textO
  deriving DecidableEq

/-- Function `check_result`. At status fourteen it compares the bit `done` and then the four
words; at any lower status it compares the bit alone. -/
def checkResult (dutText0 dutText1 dutText2 dutText3 : Word) (dutDone : Int)
    (benchTextO : WordArray) (benchDone status : Int) : Except CheckError Unit :=
  if status = sCt then
    if dutDone ≠ benchDone then .error .doneBit
    else if ¬(dutText0 = benchTextO.get 0 ∧ dutText1 = benchTextO.get 1 ∧
      dutText2 = benchTextO.get 2 ∧ dutText3 = benchTextO.get 3) then .error .textO
    else .ok ()
  else if status < sCt ∨ status = 0 then
    if dutDone ≠ benchDone then .error .doneBit else .ok ()
  else .ok ()

/-- The inputs of the core for a transaction. The words of the text are joined to the block
that the pins carry. -/
def drive (t : Transaction) : CipherTop.Inputs := ⟨t.rst, t.ld, t.key, block t.text⟩

/-- A simulation: the registers of the core at its start, the transactions, and what
`generate_ciphertext` finds in place of its argument. -/
structure Bench where
  start : CipherTop.Registers
  transactions : Nat → Transaction
  argument : Nat → Int

namespace Bench
variable (b : Bench)

/-- The registers whose outputs iteration `n` reads. They are those after the edge that has
sampled the transaction of iteration `n - 2`. -/
def dut (n : Nat) : CipherTop.Registers :=
  CipherTop.run b.start (fun i => drive (b.transactions i)) (n - 1)

/-- What iteration `n` reads from the golden model, which answers within the iteration. -/
def model (n : Nat) : Outcome := outcome b.argument b.transactions n

/-- The call of `check_result` in iteration `n`, with the words of `text_out` from the
lowest to the highest. -/
def check (n : Nat) : Except CheckError Unit :=
  checkResult ((b.dut n).textOut.extractLsb 31 0) ((b.dut n).textOut.extractLsb 63 32)
    ((b.dut n).textOut.extractLsb 95 64) ((b.dut n).textOut.extractLsb 127 96)
    (b.dut n).done.toInt (b.model n).ctext (b.model n).done (b.model n).status

/-- The constraint `ld_status`: no load while the status read back is not zero. The test
replaces its transaction object after the warm-up, and with it that status. -/
def Constrained (warmup : Nat) : Prop :=
  ∀ n, n + 1 ≠ warmup → (b.model n).status ≠ 0 → (b.transactions (n + 1)).ld = false

/-- Core and model agree in iteration `n`: on the bit `done` in any case, and on the text
where the status says that the model has completed. -/
@[mk_iff]
structure Agrees (n : Nat) : Prop where
  done : (b.dut n).done.toInt = (b.model n).done
  text : (b.model n).status = 14 →
    (b.dut n).textOut.extractLsb 31 0 = (b.model n).ctext.get 0 ∧
    (b.dut n).textOut.extractLsb 63 32 = (b.model n).ctext.get 1 ∧
    (b.dut n).textOut.extractLsb 95 64 = (b.model n).ctext.get 2 ∧
    (b.dut n).textOut.extractLsb 127 96 = (b.model n).ctext.get 3

/-- A load at iteration `m` that no other load and no reset disturbs for eleven iterations.
This is what the core needs to complete it. -/
def Completes (m : Nat) : Prop :=
  ((b.transactions m).rst = true ∧ (b.transactions m).ld = true) ∧
    ∀ i, m < i → i ≤ m + 11 → (b.transactions i).rst = true ∧ (b.transactions i).ld = false

/-- No reset comes between the completion of that load in the core and the answer of the
model, unless it zeroes the answer for the one text whose ciphertext is zero. -/
def Spares (m : Nat) : Prop :=
  (b.transactions (m + 12)).rst = true ∧ ((b.transactions (m + 13)).rst = true ∨
    block (b.transactions m).text = invCipher (b.transactions m).key 0#128)

variable {b}

/-- The checker is silent exactly where core and model agree. The status never exceeds
fourteen, so one of its two branches with comparisons is always taken. -/
theorem check_iff (b : Bench) (n : Nat) : b.check n = .ok () ↔ b.Agrees n := by
  have bounded : (b.model n).status ≤ 14 := (outcome_status b.argument n).1
  rw [check, checkResult]
  by_cases complete : (b.model n).status = 14
  · by_cases done : (b.dut n).done.toInt = (b.model n).done <;>
      simp [complete, done, sCt, agrees_iff]
  · have below : (b.model n).status < 14 := by omega
    by_cases done : (b.dut n).done.toInt = (b.model n).done <;>
      simp [complete, below, done, sCt, agrees_iff]

/-- The core completes in the thirteenth iteration after such a load: eleven clocks of work,
and two iterations until what it has sampled and stored is read. -/
theorem dut_done_iff (cleared : (b.transactions 0).rst = false) {n : Nat} (later : 2 ≤ n) :
    (b.dut n).done = true ↔ ∃ m, n = m + 13 ∧ b.Completes m := by
  rw [dut, CipherTop.done_since b.start (m := 0) cleared (by omega), Clocked.since_iff]
  constructor
  · rintro ⟨m, same, fired, quiet⟩
    exact ⟨m, by omega, fired, fun i after before => quiet i after (by omega)⟩
  · rintro ⟨m, rfl, fired, quiet⟩
    exact ⟨m, by omega, fired, fun i after before => quiet i after (by omega)⟩

/-- Its text is then the ciphertext of the load. Nothing but another load could change that,
not even a reset. -/
theorem dut_text {m : Nat} (completes : b.Completes m) :
    (b.dut (m + 13)).textOut =
      cipher (b.transactions m).key (block (b.transactions m).text) :=
  CipherTop.text_out_after_load b.start (fun i => drive (b.transactions i)) completes.1.2
    fun i after before => (completes.2 i after (by omega)).2

/-- While the model counts, the constraint keeps the next iteration from loading, unless the
test has just replaced the object in which the status is stored. -/
theorem unloaded_next {warmup : Nat} (constrained : b.Constrained warmup) {n k : Nat}
    (small : k ≤ 13)
    (since : Clocked.Since (Loads b.transactions) (Counts b.transactions) k (n + 1))
    (after : n + 1 ≠ warmup) : (b.transactions (n + 1)).ld = false := by
  have status : (b.model n).status = k + 1 := ((outcome_status b.argument n).2 k small).mpr since
  exact constrained n after (by omega)

/-- The model completes in the same iteration, unless a reset comes right before it. The
constraint excludes the loads in these last two iterations that would keep the model from
completing. -/
theorem model_since_iff {warmup : Nat}
    (warm : ∀ n, n < warmup → (b.transactions n).rst = false)
    (constrained : b.Constrained warmup) (n : Nat) :
    Clocked.Since (Loads b.transactions) (Counts b.transactions) 13 (n + 1) ↔
      ∃ m, n = m + 13 ∧ b.Completes m ∧ (b.transactions (m + 12)).rst = true := by
  constructor
  · intro since
    obtain ⟨m, same, loads, counts⟩ := Clocked.since_iff.mp since
    obtain rfl : n = m + 13 := by omega
    have running (i : Nat) (from' : m ≤ i) (before : i ≤ m + 12) :
        (b.transactions i).rst = true := (counts (i + 1) (by omega) (by omega)).2
    exact ⟨m, rfl, ⟨⟨running m (by omega) (by omega), loads⟩, fun i after before =>
      ⟨running i (by omega) (by omega), (counts i after (by omega)).1⟩⟩,
      running (m + 12) (by omega) (by omega)⟩
  · rintro ⟨m, rfl, ⟨⟨running, loads⟩, quiet⟩, last⟩
    have late : warmup ≤ m := by
      by_cases early : m < warmup
      · exact absurd ((warm m early).symm.trans running) Bool.false_ne_true
      · exact Nat.le_of_not_lt early
    have resets (i : Nat) (after : m < i) (before : i ≤ m + 12) :
        (b.transactions (i - 1)).rst = true := by
      by_cases first : i = m + 1
      · exact first ▸ running
      · exact (quiet (i - 1) (by omega) (by omega)).1
    have counted : Clocked.Since (Loads b.transactions) (Counts b.transactions) 11 (m + 11 + 1) :=
      Clocked.since_iff.mpr ⟨m, by omega, loads, fun i after before =>
        ⟨(quiet i after (by omega)).2, resets i after (by omega)⟩⟩
    have twelfth := unloaded_next constrained (by decide) counted (by omega)
    have counted : Clocked.Since (Loads b.transactions) (Counts b.transactions) 12 (m + 12 + 1) :=
      ⟨counted, twelfth, resets (m + 12) (by omega) (by omega)⟩
    have thirteenth := unloaded_next constrained (by decide) counted (by omega)
    exact ⟨counted, thirteenth, last⟩

/-- Where the core does not complete, the model does not either, and they agree. Below
status fourteen there is nothing but the bit `done` to agree on. -/
theorem agrees_of_idle {n : Nat} (idle : (b.dut n).done = false)
    (none : ¬ Clocked.Since (Loads b.transactions) (Counts b.transactions) 13 (n + 1)) :
    b.Agrees n where
  done := by
    rw [idle]
    exact ((outcome_done b.argument n).2 none).symm
  text complete := absurd (((outcome_status b.argument n).2 13 (Nat.le_refl 13)).mp complete) none

/-- Where both complete, they agree unless a reset zeroes a ciphertext that is not zero. The
core has its text from the load, and the model clears its answer in the iteration of a
reset. -/
theorem agrees_of_complete (passed : ∀ n, b.argument n ≠ 0) {m : Nat}
    (done : (b.dut (m + 13)).done = true) (completes : b.Completes m)
    (since : Clocked.Since (Loads b.transactions) (Counts b.transactions) 13 (m + 13 + 1)) :
    b.Agrees (m + 13) ↔ (b.transactions (m + 13)).rst = true ∨
      block (b.transactions m).text = invCipher (b.transactions m).key 0#128 := by
  have completed : (b.model (m + 13)).done = 1 := (outcome_done b.argument (m + 13)).1 since
  have status : (b.model (m + 13)).status = 14 :=
    ((outcome_status b.argument (m + 13)).2 13 (Nat.le_refl 13)).mpr since
  have answer : block (b.model (m + 13)).ctext = _ := outcome_ctext passed since
  have words := (eq_block_iff (b.dut (m + 13)).textOut (b.model (m + 13)).ctext).symm
  rw [dut_text completes, answer, Nat.add_sub_cancel] at words
  rw [agrees_iff, done, completed, status, dut_text completes, ← cipher_eq_iff]
  simp only [Bool.toInt_true, true_and, forall_const, words]
  cases (b.transactions (m + 13)).rst <;> simp

/-- Where only the core completes, they disagree, since the bits `done` differ. This is the
case of a reset that comes too late for the core and in time for the model. -/
theorem not_agrees_of_cancelled {n : Nat} (done : (b.dut n).done = true)
    (none : ¬ Clocked.Since (Loads b.transactions) (Counts b.transactions) 13 (n + 1)) :
    ¬ b.Agrees n := by
  intro agrees
  have cancelled : (b.model n).done = 0 := (outcome_done b.argument n).2 none
  have equal := agrees.done
  rw [done, cancelled] at equal
  exact absurd equal (by decide)

/-- Iteration by iteration, core and model agree exactly where no reset comes between the
completion of the core and the answer of the model. A load that completes in this iteration
is the only one. -/
theorem agrees_iff_spared (passed : ∀ n, b.argument n ≠ 0) {warmup : Nat} (nonempty : 0 < warmup)
    (warm : ∀ n, n < warmup → (b.transactions n).rst = false)
    (constrained : b.Constrained warmup) {n : Nat} (later : 2 ≤ n) :
    b.Agrees n ↔ ∀ m, n = m + 13 → b.Completes m → b.Spares m := by
  have done := dut_done_iff (warm 0 nonempty) later
  have since := model_since_iff warm constrained n
  by_cases some : ∃ m, n = m + 13 ∧ b.Completes m
  · obtain ⟨m, rfl, completes⟩ := some
    have alone : (∀ k, m + 13 = k + 13 → b.Completes k → b.Spares k) ↔ b.Spares m := by
      constructor
      · exact fun all => all m rfl completes
      · intro spares k same _
        obtain rfl : m = k := by omega
        exact spares
    have completed := done.mpr ⟨m, rfl, completes⟩
    rw [alone, Spares]
    cases last : (b.transactions (m + 12)).rst with
    | true =>
      have counted := since.mpr ⟨m, rfl, completes, last⟩
      rw [agrees_of_complete passed completed completes counted]
      exact (and_iff_right rfl).symm
    | false =>
      have differs := not_agrees_of_cancelled completed fun counted => by
        obtain ⟨k, same, _, running⟩ := since.mp counted
        obtain rfl : m = k := by omega
        exact Bool.false_ne_true (last.symm.trans running)
      simp [differs]
  · have idle : (b.dut n).done = false :=
      Bool.eq_false_iff.mpr fun completed => some (done.mp completed)
    have none : ¬ Clocked.Since (Loads b.transactions) (Counts b.transactions) 13 (n + 1) := by
      intro counted
      obtain ⟨m, same, completes, _⟩ := since.mp counted
      exact some ⟨m, same, completes⟩
    exact iff_of_true (agrees_of_idle idle none) fun m same completes =>
      absurd ⟨m, same, completes⟩ some

end Bench

/-- Lockstep without resets. After a warm-up in reset, and with no reset afterwards, core
and model agree in every iteration from the second on, in which the outputs of the core
are determined, and the checker reports nothing. One iteration of warm-up would do. -/
theorem lockstep (b : Bench) {warmup : Nat} (three : 3 ≤ warmup)
    (reset : ∀ n, (b.transactions n).rst = decide (warmup ≤ n))
    (passed : ∀ n, b.argument n ≠ 0) (constrained : b.Constrained warmup) :
    ∀ n, 2 ≤ n → b.Agrees n ∧ b.check n = .ok () := by
  intro n later
  have warm : ∀ n, n < warmup → (b.transactions n).rst = false := fun n early =>
    (reset n).trans (decide_eq_false (Nat.not_le_of_lt early))
  have agrees : b.Agrees n := by
    refine (Bench.agrees_iff_spared passed (by omega) warm constrained later).mpr
      fun m same completes => ?_
    have late : warmup ≤ m := of_decide_eq_true ((reset m).symm.trans completes.1.1)
    exact ⟨(reset _).trans (decide_eq_true (by omega)),
      Or.inl ((reset _).trans (decide_eq_true (by omega)))⟩
  exact ⟨agrees, (Bench.check_iff b n).mpr agrees⟩

/-- Three iterations of warm-up, a load of the zero block under the zero key at iteration 3,
and one more reset, at an iteration of choice. -/
def cutBench (cut : Nat) : Bench where
  start := default
  transactions n := ⟨decide (3 ≤ n) && n != cut, n == 3, 0#128, zeros⟩
  argument _ := 1

/-- Its only load comes right after the warm-up, where the transaction object is new and its
status zero. -/
theorem cut_bench_constrained (cut : Nat) : (cutBench cut).Constrained 3 := fun _ after _ =>
  beq_false_of_ne after

/-- Its warm-up is in reset, whichever iteration is chosen for the other reset. -/
theorem cut_bench_warm (cut n : Nat) (early : n < 3) :
    ((cutBench cut).transactions n).rst = false := by
  simp [cutBench, Nat.not_le_of_lt early]

/-- The argument of `generate_ciphertext` happens to be one, so the model encrypts. -/
theorem cut_bench_passed (cut n : Nat) : (cutBench cut).argument n ≠ 0 := by
  change (1 : Int) ≠ 0
  decide

/-- With the reset inside the warm-up, model and core answer together in the thirteenth
iteration after the load. -/
theorem lockstep_single_load : (cutBench 0).Agrees 16 ∧ (cutBench 0).check 16 = .ok () := by
  have reset : ∀ n, ((cutBench 0).transactions n).rst = decide (3 ≤ n) := by
    intro n
    by_cases late : 3 ≤ n
    · simp [cutBench, late, show n ≠ 0 by omega]
    · simp [cutBench, late]
  exact lockstep (cutBench 0) (Nat.le_refl 3) reset (cut_bench_passed 0)
    (cut_bench_constrained 0) 16 (by decide)

/-- Lockstep with resets, exactly. After a warm-up in reset, core and model agree in every
iteration if and only if every load that the core completes is spared by the resets: none
comes twelve iterations after it, and none thirteen iterations after it unless its text
is the one whose ciphertext is zero. The checker is silent in just the iterations in
which they agree. -/
theorem lockstep_iff (b : Bench) {warmup : Nat} (three : 3 ≤ warmup)
    (warm : ∀ n, n < warmup → (b.transactions n).rst = false)
    (passed : ∀ n, b.argument n ≠ 0) (constrained : b.Constrained warmup) :
    ((∀ n, 2 ≤ n → b.Agrees n) ↔ ∀ m, b.Completes m → b.Spares m) ∧
      ∀ n, b.check n = .ok () ↔ b.Agrees n := by
  refine ⟨⟨fun agrees m completes => ?_, fun spares n later => ?_⟩, Bench.check_iff b⟩
  · exact (Bench.agrees_iff_spared passed (by omega) warm constrained (by omega)).mp
      (agrees (m + 13) (by omega)) m rfl completes
  · exact (Bench.agrees_iff_spared passed (by omega) warm constrained later).mpr
      fun m _ completes => spares m completes

/-- A reset in the middle of the operation is seen alike: neither completes, and they agree
in every iteration. -/
theorem lockstep_iff_early_reset :
    (∀ n, 2 ≤ n → (cutBench 10).Agrees n) ∧ (cutBench 10).check 16 = .ok () := by
  have law := lockstep_iff (cutBench 10) (Nat.le_refl 3) (cut_bench_warm 10)
    (cut_bench_passed 10) (cut_bench_constrained 10)
  have agrees := law.1.mpr fun m completes => by
    obtain rfl : m = 3 := of_decide_eq_true completes.1.2
    exact absurd (completes.2 10 (by decide) (by decide)).1 (by decide)
  exact ⟨agrees, (law.2 16).mpr (agrees 16 (by decide))⟩

/-- A reset twelve iterations after the load: the core has completed, the model has not, and
the checker reports an error, although warm-up, constraint and argument are as they should
be. -/
theorem late_reset_flagged :
    (∀ n, n < 3 → ((cutBench 15).transactions n).rst = false) ∧
      (∀ n, ((cutBench 15).model n).status ≠ 0 → ((cutBench 15).transactions (n + 1)).ld = false) ∧
      (∀ n, (cutBench 15).argument n ≠ 0) ∧
      ((cutBench 15).dut 16).done = true ∧ ((cutBench 15).model 16).done = 0 ∧
      (cutBench 15).check 16 ≠ .ok () := by
  have constrained := cut_bench_constrained 15
  have completes : (cutBench 15).Completes 3 := by
    refine ⟨⟨rfl, rfl⟩, fun i after before => ⟨?_, beq_false_of_ne (Nat.ne_of_gt after)⟩⟩
    simp [cutBench, show 3 ≤ i by omega, show i ≠ 15 by omega]
  have done := (Bench.dut_done_iff (b := cutBench 15) rfl (n := 16) (by decide)).mpr
    ⟨3, rfl, completes⟩
  have none : ¬ Clocked.Since (Loads (cutBench 15).transactions) (Counts (cutBench 15).transactions)
      13 (16 + 1) := by
    intro counted
    obtain ⟨m, same, _, running⟩ :=
      (Bench.model_since_iff (cut_bench_warm 15) constrained 16).mp counted
    obtain rfl : m = 3 := by omega
    exact absurd running (by decide)
  refine ⟨cut_bench_warm 15, fun n counting => ?_, cut_bench_passed 15, done,
    (outcome_done _ 16).2 none, fun silent => Bench.not_agrees_of_cancelled done none
      ((Bench.check_iff _ 16).mp silent)⟩
  by_cases first : n + 1 = 3
  · obtain rfl : n = 2 := by omega
    exact absurd (by decide +kernel : ((cutBench 15).model 2).status = 0) counting
  · exact constrained n first counting

end AesCore.Scoreboard
