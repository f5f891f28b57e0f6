import AesCore.Overlap

/-!
# Sessions

A session is a run in which every command has the engine to itself for as long as the
hardware takes: it is the discipline of a user who waits for each answer before the next
command. In a session the interface reports completion twelve clocks after each command
that has a result, with that result, and at no other time.

Nothing of this is proved for sessions again. Commands that have the engine to
themselves leave room for each other, so a session is an overlapped run, and what is
known of overlapped runs applies.
-/

namespace AesCore.Engine

open Fips197

/-- For how many clocks a command has the engine to itself: until its answer is shown, or
until its key is in the buffer. -/
def Command.clocks : Command → Nat
  | .enc _ _ => 13
  | .loadKey _ => 12
  | .dec _ => 13

/-- A run with two or more clocks of reset that then issues commands with room between them,
a key load before any decryption. What follows a command for its clocks is no command. -/
structure Session (run : AesTop.Run) (commands : Nat → Option Command) (first : Nat) : Prop where
  two : 2 ≤ first
  reset : ∀ n, (run.inputs n).rst = decide (first ≤ n)
  silent : ∀ n, n < first → commands n = none
  issued : ∀ n, first ≤ n → Issues (run.inputs n) (commands n)
  spaced : ∀ u command n, commands u = some command → u < n → n < u + command.clocks →
    commands n = none
  keyed : ∀ u text, commands u = some (.dec text) →
    ∃ t loaded, t < u ∧ commands t = some (.loadKey loaded)

/-- Commands that have the engine to themselves leave room for each other. The key of a
decryption is that of the last key load before it, which is complete, and the next one comes
after the answer. -/
theorem overlapped_of_session {run : AesTop.Run} {commands : Nat → Option Command} {first : Nat}
    (session : Session run commands first) : Overlapped run commands first := by
  have alone {u n : Nat} {command other : Command} (issued : commands u = some command)
      (again : commands n = some other) (after : u < n) : u + command.clocks ≤ n := by
    by_contra close
    have silent := session.spaced u command n issued after (by omega)
    exact absurd (silent.symm.trans again) (Option.some_ne_none _).symm
  refine ⟨session.two, session.reset, session.silent, session.issued, ?_, ?_, ?_⟩
  · intro u n own text other block issued again after
    have apart : u + 13 ≤ n := alone issued again after
    omega
  · intro u n text block issued again after
    exact alone issued again after
  · intro u text issued
    obtain ⟨t, before, ⟨loaded, load⟩, last⟩ := Clocked.exists_last
      (fun t => ∃ loaded, commands t = some (.loadKey loaded)) (n := u) (by
        obtain ⟨t, loaded, before, load⟩ := session.keyed u text issued
        exact ⟨t, before, loaded, load⟩)
    refine ⟨t, loaded, alone load issued before, load, fun i other again after => ?_⟩
    rcases Nat.lt_trichotomy i u with older | rfl | newer
    · exact absurd ⟨other, again⟩ (last i after older)
    · exact absurd (again.symm.trans issued) (by simp)
    · have apart : u + 13 ≤ i := alone issued again newer
      omega

/-- The interface refines the engine. In every session the output `d.done` is set twelve
clocks after each command with a result and at no other time, `d.text_out` is then that
result, and from the first result on `d.done` is otherwise clear. Every encryption and every
decryption has a result. -/
theorem refines_engine (run : AesTop.Run) (commands : Nat → Option Command) {first : Nat}
    (session : Session run commands first) :
    (∀ n, first ≤ n → (AesTop.done (run.state n) = some true ↔
      ∃ u, n = u + 12 ∧ (response commands u).isSome = true)) ∧
    (∀ u, (response commands u).isSome = true →
      AesTop.textOut (run.state (u + 12)) = response commands u) ∧
    (∀ n, (∃ u, u + 12 ≤ n ∧ (response commands u).isSome = true) →
      AesTop.done (run.state n) ≠ some true → AesTop.done (run.state n) = some false) ∧
    ∀ u, (∃ own text, commands u = some (.enc own text)) ∨ (∃ text, commands u = some (.dec text)) →
      (response commands u).isSome = true := by
  have overlapped := overlapped_of_session session
  have two := session.two
  refine ⟨fun n later => done_iff_response overlapped (Nat.le_trans two later),
    fun u responded => text_of_response overlapped responded, ?_,
    fun u issued => response_of_issued overlapped issued⟩
  rintro n ⟨u, before, responded⟩ undone
  exact done_false_after_response overlapped responded before undone

/-- A key load at clock 2, a decryption at clock 14, and an encryption under another key at
clock 27. Each comes in the first clock that is free. -/
def sampleCommands (n : Nat) : Option Command :=
  if n = 2 then some (.loadKey 0#128)
  else if n = 14 then some (.dec 0#128)
  else if n = 27 then some (.enc 1#128 0#128)
  else none

/-- The run that issues these commands after two clocks of reset. -/
def sampleRun : AesTop.Run where
  start := default
  inputs n := ⟨decide (2 ≤ n), n != 27, n == 14 || n == 27, n == 2, if n = 27 then 1#128 else 0#128,
    0#128⟩
  outside _ := 0#128

/-- It is a session: no command falls into the clocks of another, and the decryption has its
key. -/
theorem sample_session : Session sampleRun sampleCommands 2 where
  two := Nat.le_refl 2
  reset _ := rfl
  silent n before := by
    simp [sampleCommands, show n ≠ 2 by omega, show n ≠ 14 by omega, show n ≠ 27 by omega]
  issued n later := by
    by_cases load : n = 2
    · subst load
      exact ⟨rfl, rfl, rfl, rfl⟩
    · by_cases decryption : n = 14
      · subst decryption
        exact ⟨rfl, rfl, rfl, rfl⟩
      · by_cases encryption : n = 27
        · subst encryption
          exact ⟨rfl, rfl, rfl, rfl⟩
        · simp [sampleCommands, sampleRun, Issues, load, decryption, encryption]
  spaced u command n issued after before := by
    have close : n < u + 13 := by
      cases command <;> simp only [Command.clocks] at before <;> omega
    have place : u = 2 ∧ n < 14 ∨ u = 14 ∨ u = 27 := by
      by_cases load : u = 2
      · subst load
        obtain rfl : Command.loadKey 0#128 = command := Option.some.inj issued
        exact Or.inl ⟨rfl, before⟩
      · by_cases decryption : u = 14
        · exact Or.inr (Or.inl decryption)
        · by_cases encryption : u = 27
          · exact Or.inr (Or.inr encryption)
          · simp [sampleCommands, load, decryption, encryption] at issued
    simp [sampleCommands, show n ≠ 2 by omega, show n ≠ 14 by omega, show n ≠ 27 by omega]
  keyed u text issued := by
    have later : 2 < u := by
      by_cases early : u ≤ 2
      · by_cases load : u = 2
        · subst load
          exact absurd issued (by simp [sampleCommands])
        · simp [sampleCommands, load, show u ≠ 14 by omega, show u ≠ 27 by omega] at issued
      · omega
    exact ⟨2, 0#128, later, rfl⟩

/-- The decryption returns the inverse cipher under the loaded key, the encryption the
cipher under its own. -/
theorem refines_engine_sample :
    AesTop.textOut (sampleRun.state 26) = some (invCipher 0#128 0#128) ∧
      AesTop.textOut (sampleRun.state 39) = some (cipher 1#128 0#128) := by
  obtain ⟨_, shown, _, answers⟩ := refines_engine sampleRun sampleCommands sample_session
  exact ⟨shown 14 (answers 14 (Or.inr ⟨0#128, rfl⟩)),
    shown 27 (answers 27 (Or.inl ⟨1#128, 0#128, rfl⟩))⟩

end AesCore.Engine
