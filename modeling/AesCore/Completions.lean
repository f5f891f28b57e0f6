import AesCore.AesTop

/-!
# Completions at the interface

Where both cores complete in one state, the output block shows the text of the
encryption. Both latencies being fixed, this needs an encryption and a decryption that
were loaded one clock apart, the decryption in the clock where its core showed `done`
for an earlier one. `Collides` is that pattern. A run without it shows every completion
with its text, however its operations overlap. In a run with it both cores complete
together, and the decryption's text is shown only if it equals that of the encryption.
-/

namespace AesCore.AesTop

open Fips197

/-- At clock `u` a decryption is loaded while its core shows `done`, the next clock loads an
encryption, and for eleven clocks nothing disturbs either. The decryption takes a clock
longer then. -/
structure Run.Collides (run : Run) (u : Nat) : Prop where
  late : (run.state u).decipher.done = true
  decryption : (run.inputs u).rst = true ∧ (run.inputs u).mode = true ∧ (run.inputs u).ld = true
  encryption : (run.inputs (u + 1)).rst = true ∧ (run.inputs (u + 1)).mode = false ∧
    (run.inputs (u + 1)).ld = true
  undisturbed : ∀ i, u + 1 < i → i ≤ u + 12 →
    (run.inputs i).rst = true ∧ (run.inputs i).ld = false

/-- Two clocks of reset leave the decryption core idle. One is not enough, since the first
may still find a count to report. -/
theorem decipher_idle (run : Run) (cleared : (run.inputs 0).rst = false)
    (again : (run.inputs 1).rst = false) :
    InvCipherTop.Shows .idle (run.decipher.state 2) :=
  InvCipherTop.idle_after_reset run.decipher (m := 0) cleared again

/-- Both cores complete in one state exactly thirteen clocks after such a decryption. The
stale completion of a decryption that a reset has met is excluded, since the reset
takes the encryption away too. -/
theorem both_done_iff (run : Run) (cleared : (run.inputs 0).rst = false)
    (again : (run.inputs 1).rst = false) {n : Nat} (later : 2 ≤ n) :
    ((run.state n).cipher.done = true ∧ (run.state n).decipher.done = true) ↔
      ∃ u, n = u + 13 ∧ run.Collides u := by
  rw [state_cipher, state_decipher,
    CipherTop.done_since run.start.cipher (m := 0) cleared (by omega), Clocked.since_iff]
  constructor
  · rintro ⟨⟨m, rfl, fired, quiet⟩, done⟩
    obtain ⟨mode, loaded⟩ := (ld_e_iff _).mp fired.2
    rcases InvCipherTop.origin_of_done run.decipher (decipher_idle run cleared again) later
        done with
      ⟨u, _, started, stretch, ⟨_, _, same⟩ | ⟨finished, same⟩⟩ | ⟨i, same, reset, _⟩
    · have equal : u = m := by omega
      subst equal
      exact absurd (((ld_d_iff _).mp started.2).1.symm.trans mode) (by decide)
    · have equal : m = u + 1 := by omega
      subst equal
      refine ⟨u, by omega, state_decipher run u ▸ finished,
        ⟨started.1, (ld_d_iff _).mp started.2⟩, ⟨fired.1, mode, loaded⟩, fun i after before => ?_⟩
      exact ⟨(quiet i after (by omega)).1, (ld_clear_iff _).mpr
        ⟨(quiet i after (by omega)).2, (stretch i (by omega) (by omega)).2⟩⟩
    · have running := (quiet i (by omega) (by omega)).1
      exact absurd (reset.symm.trans running) Bool.false_ne_true
  · rintro ⟨u, rfl, late, ⟨running, mode, loaded⟩, ⟨runningNext, modeNext, loadedNext⟩, undisturbed⟩
    constructor
    · exact ⟨u + 1, by omega, ⟨runningNext, (ld_e_iff _).mpr ⟨modeNext, loadedNext⟩⟩,
        fun i after before =>
          ⟨(undisturbed i after (by omega)).1,
            ((ld_clear_iff _).mp (undisturbed i after (by omega)).2).1⟩⟩
    · refine (InvCipherTop.done_late run.decipher ⟨running, (ld_d_iff _).mpr ⟨mode, loaded⟩⟩
        (state_decipher run u ▸ late) fun i after before => ?_).2
      by_cases next : i = u + 1
      · subst next
        refine ⟨runningNext, Bool.eq_false_iff.mpr fun loaded => ?_⟩
        exact absurd (((ld_d_iff _).mp loaded).1.symm.trans modeNext) (by decide)
      · exact ⟨(undisturbed i (by omega) (by omega)).1,
          ((ld_clear_iff _).mp (undisturbed i (by omega) (by omega)).2).2⟩

/-- What the interface owes to the cores before clock `n`: each completion with its
text, and from the first completion on, nothing else. -/
structure Run.Shown (run : Run) (n : Nat) : Prop where
  cipher : (run.state n).cipher.done = true →
    done (run.state n) = some true ∧ textOut (run.state n) = some (run.state n).cipher.textOut
  decipher : (run.state n).decipher.done = true →
    done (run.state n) = some true ∧ textOut (run.state n) = some (run.state n).decipher.textOut
  neither : (∃ k, k ≤ n ∧ ((run.state k).cipher.done = true ∨ (run.state k).decipher.done = true)) →
    (run.state n).cipher.done = false → (run.state n).decipher.done = false →
      done (run.state n) = some false

/-- A state in which the cores do not complete together is shown as it should be. From the
first completion on the output block has assigned its outputs, so they are defined where
neither is done. -/
theorem shown_of_alone (run : Run) {n : Nat} (alone : ¬ ((run.state n).cipher.done = true ∧
    (run.state n).decipher.done = true)) : run.Shown n where
  cipher := cipher_visible
  decipher completed := decipher_visible completed
    (Bool.eq_false_iff.mpr fun encrypted => alone ⟨encrypted, completed⟩)
  neither := by
    rintro ⟨k, before, completed⟩ cipher decipher
    have different : k ≠ n := by
      rintro rfl
      rcases completed with encrypted | decrypted
      · exact Bool.false_ne_true (cipher.symm.trans encrypted)
      · exact Bool.false_ne_true (decipher.symm.trans decrypted)
    have assigned := assigned_after run (Nat.lt_of_le_of_ne before different) completed
    rw [nothing_visible cipher decipher]
    obtain ⟨driver, same⟩ := Option.isSome_iff_exists.mp assigned
    rw [same]
    rfl

/-- Every completion is shown in a run without collisions. In a run with one, both cores
complete together thirteen clocks after it, and the text shown is that of the encryption.
Where the two texts differ, that of the decryption is never shown. -/
theorem completions_shown (run : Run)
    (reset : (run.inputs 0).rst = false ∧ (run.inputs 1).rst = false) :
    ((∀ u, ¬ run.Collides u) → ∀ n, 2 ≤ n → run.Shown n) ∧
      ∀ u, run.Collides u →
        ((run.state (u + 13)).cipher.done = true ∧ (run.state (u + 13)).decipher.done = true) ∧
          textOut (run.state (u + 13)) = some (run.state (u + 13)).cipher.textOut := by
  obtain ⟨cleared, again⟩ := reset
  constructor
  · intro none n later
    refine shown_of_alone run fun both => ?_
    obtain ⟨u, _, collides⟩ := (both_done_iff run cleared again later).mp both
    exact none u collides
  · intro u collides
    have both := (both_done_iff run cleared again (n := u + 13) (by omega)).mpr ⟨u, rfl, collides⟩
    exact ⟨both, (cipher_visible both.1).2⟩

/-- Two clocks of reset and an encryption of the zero block at clock 2, which no decryption
follows. -/
def encryptingRun : Run where
  start := default
  inputs n := ⟨decide (2 ≤ n), false, n == 2, false, 0#128, 0#128⟩
  outside _ := 0#128

/-- Two clocks of reset, a load of the zero key at clock 2, decryptions of the zero block
at clock 14 and in the clock that shows its completion, and an encryption of the zero
block right after. -/
def collidingRun : Run where
  start := default
  inputs n := ⟨decide (2 ≤ n), n != 27, n == 14 || n == 26 || n == 27, n == 2, 0#128, 0#128⟩
  outside _ := 0#128

/-- Outside the loads, nothing happens: `ld` is clear at every other clock. -/
theorem colliding_ld_clear {i : Nat} (first : i ≠ 14) (second : i ≠ 26) (third : i ≠ 27) :
    (collidingRun.inputs i).ld = false := by
  simp [collidingRun, first, second, third]

/-- Its key load fills the buffer in time for the first decryption, which is complete
when the second one is loaded. -/
theorem colliding_late :
    InvCipherTop.Shows (.counting 12 (by decide)) (collidingRun.decipher.state 26) ∧
      InvCipherTop.Complete 0#128 (collidingRun.decipher.state 14) ∧
      (collidingRun.decipher.state 14).kbLd = false := by
  have idle : InvCipherTop.Shows .idle (collidingRun.decipher.state 14) :=
    InvCipherTop.idle_held collidingRun.decipher (by decide) (decipher_idle collidingRun rfl rfl)
      fun i _ before => ((ld_clear_iff _).mp
        (colliding_ld_clear (by omega) (by omega) (by omega))).2
  refine ⟨?_, InvCipherTop.key_loaded collidingRun.decipher (t := 2) ⟨rfl, rfl⟩
    fun i after before => ⟨decide_eq_true (by omega), ?_⟩⟩
  · exact InvCipherTop.counting_fresh collidingRun.decipher (u := 14) (j := 11) ⟨rfl, rfl⟩ idle.done
      (by decide) fun i after before => ⟨decide_eq_true (by omega), ((ld_clear_iff _).mp
        (colliding_ld_clear (by omega) (by omega) (by omega))).2⟩
  · refine Bool.eq_false_iff.mpr fun again => ?_
    exact absurd ((kld_d_iff _).mp again).2 (by simp [collidingRun, Nat.ne_of_gt after])

/-- Together with the encryption it collides, and nothing comes after the encryption. -/
theorem colliding : collidingRun.Collides 26 where
  late := (state_decipher collidingRun 26).symm ▸ colliding_late.1.done
  decryption := ⟨rfl, rfl, rfl⟩
  encryption := ⟨rfl, rfl, rfl⟩
  undisturbed i after _ :=
    ⟨decide_eq_true (by omega), colliding_ld_clear (by omega) (by omega) (by omega)⟩

/-- The text of the encryption, as the wires of its core compute it, so that it can be
evaluated. -/
theorem colliding_cipher_text : (collidingRun.state 39).cipher.textOut =
    CipherTop.encipher 9 (CipherTop.roundWords 0#128) 0#128 := by
  rw [state_cipher, CipherTop.encipher_schedule]
  exact CipherTop.text_out_after_load collidingRun.start.cipher collidingRun.cipher (m := 27) rfl
    fun i after before => ((ld_clear_iff _).mp
      (colliding_ld_clear (by omega) (by omega) (by omega))).1

/-- The text of the decryption: its first round key was read past the end of the buffer,
and the round keys it should have used follow one round late. -/
theorem colliding_decipher_text : (collidingRun.state 39).decipher.textOut =
    InvCipherTop.decipher 10
      (fun k => if k = 0 then default else CipherTop.roundWords 0#128 (11 - k)) 0#128 := by
  obtain ⟨shows, complete, closed⟩ := colliding_late
  have quiet : ∀ i, 26 < i → i < 39 → collidingRun.decipher.Quiet i := by
    intro i after before
    refine ⟨decide_eq_true (by omega), Bool.eq_false_iff.mpr fun loaded => ?_⟩
    obtain ⟨mode, load⟩ := (ld_d_iff _).mp loaded
    by_cases encryption : i = 27
    · subst encryption
      exact absurd mode (by decide)
    · exact absurd ((colliding_ld_clear (by omega) (by omega) encryption).symm.trans load)
        Bool.false_ne_true
  have held (k : Nat) : InvCipherTop.Complete 0#128 (collidingRun.decipher.state (26 + k)) :=
    InvCipherTop.complete_held collidingRun.decipher (by omega) complete closed
      fun i after _ fired => absurd ((kld_d_iff _).mp fired.2).2
        (by simp [collidingRun, show i ≠ 2 by omega])
  have text := InvCipherTop.text_out_after_load collidingRun.decipher 10 (u := 26) rfl
    fun i after before => (quiet i after (by omega)).2
  rw [state_decipher, InvCipherTop.decipher_eq]
  refine text.trans (congrArg ofState (layers.decrypt_congr _ fun k inside => ?_))
  cases k with
  | zero =>
    have count : (collidingRun.decipher.state 26).dcnt.toNat = 12 := shows.dcnt
    change (InvCipherTop.unpack
      ((collidingRun.decipher.state 26).kb[(collidingRun.decipher.state 26).dcnt.toNat]?.getD
        0#128)).word = _
    rw [count, Vector.getElem?_eq_none (by decide)]
    rfl
  | succ k =>
    have slot := InvCipherTop.slots_late collidingRun.decipher (u := 26) ⟨rfl, rfl⟩ shows.done quiet
      (k := k) (by omega) (held (k + 1) k (by omega))
    have words := (KeyExpand.scheduled_schedule 0#128 (j := 10 - k) (by omega)).1
    rw [slot, if_neg (Nat.succ_ne_zero k), show 11 - (k + 1) = 10 - k by omega]
    exact words.symm

/-- Runs without and with a collision: in the first all completions are shown, in the second
the encryption's text is shown where both cores are done. -/
theorem completions_shown_colliding : (∀ n, 2 ≤ n → encryptingRun.Shown n) ∧
    (collidingRun.state 39).decipher.done = true ∧
      textOut (collidingRun.state 39) = some (collidingRun.state 39).cipher.textOut := by
  have quiet := (completions_shown encryptingRun ⟨rfl, rfl⟩).1 fun u collides =>
    Bool.false_ne_true collides.decryption.2.1
  have hidden := (completions_shown collidingRun ⟨rfl, rfl⟩).2 26 colliding
  exact ⟨quiet, hidden.1.2, hidden.2⟩

/-- A lost completion: the decryption core completes and the interface shows another text.
The two texts are evaluated, and they differ. -/
theorem completion_hidden :
    ((collidingRun.inputs 0).rst = false ∧ (collidingRun.inputs 1).rst = false) ∧
      (collidingRun.state 39).decipher.done = true ∧
      textOut (collidingRun.state 39) ≠ some (collidingRun.state 39).decipher.textOut := by
  have both := (both_done_iff collidingRun rfl rfl (n := 39) (by decide)).mpr ⟨26, rfl, colliding⟩
  refine ⟨⟨rfl, rfl⟩, both.2, ?_⟩
  rw [(cipher_visible both.1).2, colliding_cipher_text, colliding_decipher_text, ne_eq,
    Option.some.injEq]
  decide +kernel

end AesCore.AesTop
