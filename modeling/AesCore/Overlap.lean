import AesCore.AnswerOrder
import AesCore.Engine

/-!
# Overlapping commands

A session gives the engine to one command at a time, which is more than the hardware
needs. The two cores work at once, and a key load shares nothing with an encryption. So
it is enough that the commands of one core leave room for each other: encryptions are
twelve clocks apart, decryptions thirteen, and the key of a decryption is loaded twelve
clocks before it and not replaced until nine clocks after it.

Under this discipline the interface still refines the engine. The commands of the two
cores mix in any way, each is answered after twelve clocks, and two answers never fall
on one state, since one clock of the interface issues one command only.
-/

namespace AesCore.Engine

open Fips197
open AesTop (ldE ldD kldD)

/-- A run with two or more clocks of reset that then issues commands, with room between
those of one core. A decryption needs a key load that is complete, and none that overtakes
its reads. -/
structure Overlapped (run : AesTop.Run) (commands : Nat → Option Command) (first : Nat) :
    Prop where
  two : 2 ≤ first
  reset : ∀ n, (run.inputs n).rst = decide (first ≤ n)
  silent : ∀ n, n < first → commands n = none
  issued : ∀ n, first ≤ n → Issues (run.inputs n) (commands n)
  encApart : ∀ u n own text other block, commands u = some (.enc own text) →
    commands n = some (.enc other block) → u < n → u + 12 ≤ n
  decApart : ∀ u n text block, commands u = some (.dec text) → commands n = some (.dec block) →
    u < n → u + 13 ≤ n
  keyed : ∀ u text, commands u = some (.dec text) →
    ∃ t loaded, t + 12 ≤ u ∧ commands t = some (.loadKey loaded) ∧
      ∀ i other, commands i = some (.loadKey other) → t < i → u + 9 ≤ i

section Overlapped
variable {run : AesTop.Run} {commands : Nat → Option Command} {first : Nat}

/-- Commands come after the reset, since none is issued while it lasts. A load in a reset
would be lost. -/
theorem first_le_issued (overlapped : Overlapped run commands first) {u : Nat} {command : Command}
    (issued : commands u = some command) : first ≤ u := by
  by_contra early
  have silent := overlapped.silent u (by omega)
  exact absurd (silent.symm.trans issued) (Option.some_ne_none _).symm

/-- The run begins with two clocks of reset, after which the decryption core is idle
whatever it held before. -/
theorem reset_twice (overlapped : Overlapped run commands first) :
    (run.inputs 0).rst = false ∧ (run.inputs 1).rst = false := by
  have two := overlapped.two
  exact ⟨(overlapped.reset 0).trans (decide_eq_false (by omega)),
    (overlapped.reset 1).trans (decide_eq_false (by omega))⟩

/-- There is no reset from `first` on, so nothing that a core has begun is cut off. -/
theorem Overlapped.rst_true (overlapped : Overlapped run commands first) {n : Nat}
    (later : first ≤ n) : (run.inputs n).rst = true :=
  (overlapped.reset n).trans (decide_eq_true later)

/-- An encryption is answered after twelve clocks. Only another encryption could take its
answer away, and the next one comes when the answer is there. -/
theorem encrypted_of_enc (overlapped : Overlapped run commands first) {u : Nat} {own text : Block}
    (issued : commands u = some (.enc own text)) : run.Encrypted u (u + 12) := by
  have from' := first_le_issued overlapped issued
  refine ⟨rfl, ⟨overlapped.rst_true from', (AesTop.ld_e_iff _).mp
    ((loads_of_issues (overlapped.issued u from')).1.mpr ⟨own, text, issued⟩)⟩,
    fun i after before => ⟨overlapped.rst_true (by omega), fun loaded => ?_⟩⟩
  obtain ⟨other, block, again⟩ := (loads_of_issues (overlapped.issued i (by omega))).1.mp
    ((AesTop.ld_e_iff _).mpr loaded)
  have apart := overlapped.encApart u i own text other block issued again after
  omega

/-- The decryption core is loaded by decryptions, thirteen clocks apart, and by nothing
else. This is the spacing under which its runs are known. -/
theorem decryptions_spaced (overlapped : Overlapped run commands first) :
    run.decipher.Spaced first where
  idle := by
    obtain ⟨m, rfl⟩ : ∃ m, first = m + 2 := ⟨first - 2, by have := overlapped.two; omega⟩
    exact InvCipherTop.idle_after_reset run.decipher
      ((overlapped.reset m).trans (decide_eq_false (by omega)))
      ((overlapped.reset (m + 1)).trans (decide_eq_false (by omega)))
  running _ later := overlapped.rst_true later
  apart u n from' loaded after close := by
    obtain ⟨text, issued⟩ := (loads_of_issues (overlapped.issued u from')).2.1.mp loaded
    refine Bool.eq_false_iff.mpr fun again => ?_
    obtain ⟨block, second⟩ := (loads_of_issues (overlapped.issued n (by omega))).2.1.mp again
    have apart := overlapped.decApart u n text block issued second after
    omega

/-- A decryption finds its core idle: the one before it has completed and its completion has
been shown. -/
theorem idle_of_dec (overlapped : Overlapped run commands first) {u : Nat} {text : Block}
    (issued : commands u = some (.dec text)) :
    InvCipherTop.Shows .idle (run.decipher.state u) := by
  have from' := first_le_issued overlapped issued
  exact InvCipherTop.idle_spaced (decryptions_spaced overlapped) from'
    ((loads_of_issues (overlapped.issued u from')).2.1.mpr ⟨text, issued⟩)

/-- So it finds no completion. A decryption that did would take a clock longer, and its text
would be wrong. -/
theorem free_of_dec (overlapped : Overlapped run commands first) {u : Nat} {text : Block}
    (issued : commands u = some (.dec text)) : (run.state u).decipher.done = false :=
  (congrArg InvCipherTop.Registers.done (AesTop.state_decipher run u)).trans
    (idle_of_dec overlapped issued).done

/-- A decryption is answered after twelve clocks. Its core is free when it is loaded, and no
other decryption is loaded before the answer. -/
theorem decrypted_of_dec (overlapped : Overlapped run commands first) {u : Nat} {text : Block}
    (issued : commands u = some (.dec text)) : run.Decrypted u (u + 12) := by
  have from' := first_le_issued overlapped issued
  have free := free_of_dec overlapped issued
  refine ⟨by rw [free, if_neg Bool.false_ne_true], ⟨overlapped.rst_true from',
    (AesTop.ld_d_iff _).mp ((loads_of_issues (overlapped.issued u from')).2.1.mpr ⟨text, issued⟩)⟩,
    fun i after _ => overlapped.rst_true (by omega), fun i after before loaded => ?_⟩
  obtain ⟨block, again⟩ := (loads_of_issues (overlapped.issued i (by omega))).2.1.mp
    ((AesTop.ld_d_iff _).mpr loaded)
  have apart := overlapped.decApart u i text block issued again after
  omega

/-- What is answered is a command with a result, twelve clocks back. A load that the
interface makes belongs to a command, and its core tells which. -/
theorem issued_of_answered (overlapped : Overlapped run commands first) {u n : Nat}
    (answered : run.Answered u n) : n = u + 12 ∧
      ((∃ own text, commands u = some (.enc own text)) ∨
        ∃ text, commands u = some (.dec text)) := by
  have running : (run.inputs u).rst = true := by
    rcases answered with ⟨_, loaded, _⟩ | ⟨_, loaded, _⟩
    · exact loaded.1
    · exact loaded.1
  have from' : first ≤ u := of_decide_eq_true ((overlapped.reset u).symm.trans running)
  have loads := loads_of_issues (overlapped.issued u from')
  rcases answered with ⟨same, loaded, _⟩ | ⟨same, loaded, _⟩
  · exact ⟨same, Or.inl (loads.1.mp ((AesTop.ld_e_iff _).mpr loaded.2))⟩
  · obtain ⟨text, issued⟩ := loads.2.1.mp ((AesTop.ld_d_iff _).mpr loaded.2)
    refine ⟨?_, Or.inr ⟨text, issued⟩⟩
    rwa [free_of_dec overlapped issued, if_neg Bool.false_ne_true] at same

/-- While a decryption runs, the buffer holds the remembered key. The key was loaded in
time, and the next load reaches no slot before the decryption has read it. -/
theorem remembered_in_place (overlapped : Overlapped run commands first) {u : Nat} {text : Block}
    (issued : commands u = some (.dec text)) :
    ∃ remembered, key commands u = some remembered ∧
      ∀ k, k ≤ 10 → InvCipherTop.Complete remembered (run.decipher.state (u + k)) := by
  obtain ⟨t, loaded, early, load, next⟩ := overlapped.keyed u text issued
  have from' := first_le_issued overlapped load
  have signals := overlapped.issued t from'
  have loads {i : Nat} (later : t < i) (fired : kldD (run.inputs i) = true) : u + 9 ≤ i := by
    obtain ⟨other, again⟩ := (loads_of_issues (overlapped.issued i (by omega))).2.2.mp fired
    exact next i other again later
  have complete := InvCipherTop.key_loaded run.decipher (t := t) ⟨overlapped.rst_true from',
    (loads_of_issues signals).2.2.mpr ⟨loaded, load⟩⟩ fun i after before =>
      ⟨overlapped.rst_true (by omega), Bool.eq_false_iff.mpr fun fired => by
        have far := loads after fired
        omega⟩
  rw [load] at signals
  have same : (run.decipher.inputs t).key = loaded := signals.2.2.2
  refine ⟨loaded, key_since_load load (by omega) fun i after before => ?_, fun k inside => ?_⟩
  · rintro ⟨other, again⟩
    have far := next i other again after
    omega
  · rw [same] at complete
    refine InvCipherTop.complete_held run.decipher (by omega) complete.1 complete.2 ?_
    rintro i after before ⟨_, fired⟩
    have far := loads (by omega) fired
    omega

/-- An encryption is answered with its result. The key and the text on the pins are those of
the command. -/
theorem enc_text (overlapped : Overlapped run commands first) {u : Nat} {own text : Block}
    (issued : commands u = some (.enc own text)) :
    AesTop.textOut (run.state (u + 12)) = response commands u ∧
      (response commands u).isSome = true := by
  have signals := overlapped.issued u (first_le_issued overlapped issued)
  rw [issued] at signals
  obtain ⟨_, _, sameKey, sameText⟩ := signals
  have responded : response commands u = some (cipher own text) := by
    simp only [response, issued, Option.bind_some, result]
  rw [AesTop.encrypted_text (reset_twice overlapped).1 (encrypted_of_enc overlapped issued),
    sameKey, sameText, responded]
  exact ⟨rfl, rfl⟩

/-- A decryption is answered with its result, under the remembered key. No encryption is
answered in the same state, since it would have been issued at the same clock. -/
theorem dec_text (overlapped : Overlapped run commands first) {u : Nat} {text : Block}
    (issued : commands u = some (.dec text)) :
    AesTop.textOut (run.state (u + 12)) = response commands u ∧
      (response commands u).isSome = true := by
  have from' := first_le_issued overlapped issued
  obtain ⟨cleared, again⟩ := reset_twice overlapped
  have decrypted := decrypted_of_dec overlapped issued
  have completed := (AesTop.decrypted_iff run cleared again (n := u + 12) (by omega)).mpr
    ⟨u, decrypted⟩
  have alone : (run.state (u + 12)).cipher.done = false := by
    refine Bool.eq_false_iff.mpr fun encrypted => ?_
    obtain ⟨v, same, loaded, _⟩ := (AesTop.encrypted_iff run cleared (by omega)).mp encrypted
    obtain rfl : v = u := by omega
    exact Bool.false_ne_true (loaded.2.1.symm.trans decrypted.2.1.2.1)
  obtain ⟨remembered, same, complete⟩ := remembered_in_place overlapped issued
  have signals := overlapped.issued u from'
  rw [issued] at signals
  have sameText : (run.decipher.inputs u).textIn = text := signals.2.2.2
  have idle := idle_of_dec overlapped issued
  have right := InvCipherTop.decrypts run.decipher
    ⟨overlapped.rst_true from', (AesTop.ld_d_iff _).mpr decrypted.2.1.2⟩
    (BitVec.eq_of_toNat_eq idle.dcnt) idle.done (fun i after before =>
      ⟨overlapped.rst_true (by omega), Bool.eq_false_iff.mpr fun loaded =>
        decrypted.2.2.2 i after before ((AesTop.ld_d_iff _).mp loaded)⟩) complete
  have responded : response commands u = some (invCipher remembered text) := by
    simp only [response, issued, Option.bind_some, result, same, Option.map_some]
  rw [(AesTop.decipher_visible completed alone).2, AesTop.state_decipher, right, sameText,
    responded]
  exact ⟨rfl, rfl⟩

/-- Every encryption and every decryption has a result. For a decryption this needs a key
that was loaded before it, which the discipline guarantees. -/
theorem response_of_issued (overlapped : Overlapped run commands first) {u : Nat}
    (issued : (∃ own text, commands u = some (.enc own text)) ∨
      ∃ text, commands u = some (.dec text)) : (response commands u).isSome = true := by
  rcases issued with ⟨own, text, issued⟩ | ⟨text, issued⟩
  · exact (enc_text overlapped issued).2
  · exact (dec_text overlapped issued).2

/-- The interface reports completion twelve clocks after each command that has a result and
at no other time, because it answers exactly the loads that such commands make. -/
theorem done_iff_response (overlapped : Overlapped run commands first) {n : Nat} (later : 2 ≤ n) :
    AesTop.done (run.state n) = some true ↔
      ∃ u, n = u + 12 ∧ (response commands u).isSome = true := by
  obtain ⟨cleared, again⟩ := reset_twice overlapped
  rw [AesTop.done_iff_answered run cleared again later]
  constructor
  · rintro ⟨u, answered⟩
    obtain ⟨same, issued⟩ := issued_of_answered overlapped answered
    exact ⟨u, same, response_of_issued overlapped issued⟩
  · rintro ⟨u, rfl, responded⟩
    rcases issued_of_response responded with ⟨own, text, issued⟩ | ⟨text, issued⟩
    · exact ⟨u, Or.inl (encrypted_of_enc overlapped issued)⟩
    · exact ⟨u, Or.inr (decrypted_of_dec overlapped issued)⟩

/-- The text shown there is the result of the command, be it an encryption or a
decryption. -/
theorem text_of_response (overlapped : Overlapped run commands first) {u : Nat}
    (responded : (response commands u).isSome = true) :
    AesTop.textOut (run.state (u + 12)) = response commands u := by
  rcases issued_of_response responded with ⟨own, text, issued⟩ | ⟨text, issued⟩
  · exact (enc_text overlapped issued).1
  · exact (dec_text overlapped issued).1

/-- Between results the interface denies completion: from the first result on, `d.done` is
assigned, and the output block assigns it false wherever neither core is done. -/
theorem done_false_after_response (overlapped : Overlapped run commands first) {u n : Nat}
    (responded : (response commands u).isSome = true) (later : u + 12 ≤ n)
    (undone : AesTop.done (run.state n) ≠ some true) : AesTop.done (run.state n) = some false := by
  have completed := (done_iff_response overlapped (n := u + 12) (by omega)).mpr ⟨u, rfl, responded⟩
  have different : u + 12 ≠ n := fun same => undone (same ▸ completed)
  obtain ⟨notCipher, notDecipher⟩ := not_or.mp fun done => undone ((AesTop.done_iff _).mpr done)
  have assigned := AesTop.assigned_after run (Nat.lt_of_le_of_ne later different)
    ((AesTop.done_iff _).mp completed)
  obtain ⟨source, same⟩ := Option.isSome_iff_exists.mp assigned
  rw [AesTop.nothing_visible (Bool.eq_false_iff.mpr notCipher) (Bool.eq_false_iff.mpr notDecipher),
    same]
  rfl

end Overlapped

/-- The interface refines the engine even where commands overlap. Whenever the commands of
each core leave room for each other, `d.done` is set twelve clocks after each command with a
result and at no other time, and `d.text_out` is then that result. Every encryption and
every decryption has a result. -/
theorem overlapped_refines_engine (run : AesTop.Run) (commands : Nat → Option Command) {first : Nat}
    (overlapped : Overlapped run commands first) :
    (∀ n, 2 ≤ n → (AesTop.done (run.state n) = some true ↔
      ∃ u, n = u + 12 ∧ (response commands u).isSome = true)) ∧
    (∀ u, (response commands u).isSome = true →
      AesTop.textOut (run.state (u + 12)) = response commands u) ∧
    ∀ u, (∃ own text, commands u = some (.enc own text)) ∨ (∃ text, commands u = some (.dec text)) →
      (response commands u).isSome = true := by
  exact ⟨fun n later => done_iff_response overlapped later,
    fun u responded => text_of_response overlapped responded,
    fun u issued => response_of_issued overlapped issued⟩

/-- A key load at clock 2, a decryption at clock 14, an encryption right after it, another
key load before the decryption is complete, and another encryption in the clock that shows
the first one. -/
def overlappingCommands (n : Nat) : Option Command :=
  if n = 2 then some (.loadKey 0#128)
  else if n = 14 then some (.dec 0#128)
  else if n = 15 then some (.enc 2#128 0#128)
  else if n = 23 then some (.loadKey 1#128)
  else if n = 27 then some (.enc 0#128 0#128)
  else none

/-- The run that issues these commands after two clocks of reset, with the pins at zero
where no command needs them. -/
def overlappingRun : AesTop.Run where
  start := default
  inputs n := ⟨decide (2 ≤ n), n != 15 && n != 27, n == 14 || n == 15 || n == 27,
    n == 2 || n == 23, if n = 15 then 2#128 else if n = 23 then 1#128 else 0#128, 0#128⟩
  outside _ := 0#128

/-- When each command is issued, by its kind. The distances between commands of one kind
follow from this. -/
theorem overlapping_places {u : Nat} {command : Command}
    (issued : overlappingCommands u = some command) :
    match command with
    | .enc _ _ => u = 15 ∨ u = 27
    | .loadKey _ => u = 2 ∨ u = 23
    | .dec _ => u = 14 := by
  unfold overlappingCommands at issued
  split_ifs at issued <;> cases issued <;> simp [*]

/-- The commands leave room for each other: the second key load comes nine clocks after the
decryption, which is just late enough. -/
theorem overlapping : Overlapped overlappingRun overlappingCommands 2 where
  two := Nat.le_refl 2
  reset _ := rfl
  silent n before := by
    simp [overlappingCommands, show n ≠ 2 by omega, show n ≠ 14 by omega, show n ≠ 15 by omega,
      show n ≠ 23 by omega, show n ≠ 27 by omega]
  issued n later := by
    unfold overlappingCommands
    split_ifs with load decryption encryption reload again
    · subst load
      exact ⟨rfl, rfl, rfl, rfl⟩
    · subst decryption
      exact ⟨rfl, rfl, rfl, rfl⟩
    · subst encryption
      exact ⟨rfl, rfl, rfl, rfl⟩
    · subst reload
      exact ⟨rfl, rfl, rfl, rfl⟩
    · subst again
      exact ⟨rfl, rfl, rfl, rfl⟩
    · simp [overlappingRun, Issues, load, decryption, encryption, reload, again]
  encApart u n own text other block issued again after := by
    have first := overlapping_places issued
    have second := overlapping_places again
    simp only at first second
    omega
  decApart u n text block issued again after := by
    have first := overlapping_places issued
    have second := overlapping_places again
    simp only at first second
    omega
  keyed u text issued := by
    obtain rfl : u = 14 := overlapping_places issued
    refine ⟨2, 0#128, by decide, rfl, fun i other again after => ?_⟩
    have place := overlapping_places again
    simp only at place
    omega

/-- The answers are the plaintext under the first key, one clock later the ciphertext, and
the second ciphertext after twelve more. -/
theorem overlapped_refines_engine_overlapping :
    AesTop.textOut (overlappingRun.state 26) = some (invCipher 0#128 0#128) ∧
      AesTop.textOut (overlappingRun.state 27) = some (cipher 2#128 0#128) ∧
      AesTop.textOut (overlappingRun.state 39) = some (cipher 0#128 0#128) := by
  have texts := (overlapped_refines_engine overlappingRun overlappingCommands overlapping).2.1
  have remembered : key overlappingCommands 14 = some 0#128 :=
    key_since_load (t := 2) rfl (by decide) fun i after before => by
      rintro ⟨other, load⟩
      have place := overlapping_places load
      simp only at place
      omega
  have decryption : response overlappingCommands 14 = some (invCipher 0#128 0#128) := by
    rw [response, remembered]
    rfl
  have plain := texts 14 (by rw [decryption]; rfl)
  exact ⟨plain.trans decryption, texts 15 rfl, texts 27 rfl⟩

end AesCore.Engine
