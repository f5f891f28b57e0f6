import AesCore.Completions
import AesCore.InvCompletions

/-!
# The order of the answers

A load is answered where its core completes for it. Another load of the same core takes
the answer away, and so does a reset; the other core has no part in this. The two
cores share one interface, which does not tell whose completion it shows, so a user can
only count.

Counting is safe. Over arbitrary runs the interface shows a completion exactly where
some load is answered, no load is answered twice, and no answer overtakes another,
since a decryption that takes a clock longer than an encryption still arrives with it
at the latest. It arrives with it in one case only, a collision, where the two answers
are one.
-/

namespace AesCore.AesTop

open Fips197

/-- The encryption core completes before clock `n` for the load at clock `u`: twelve clocks
later, if neither a reset nor another encryption is given until then. -/
def Run.Encrypted (run : Run) (u n : Nat) : Prop :=
  n = u + 12 ∧
    ((run.inputs u).rst = true ∧ (run.inputs u).mode = false ∧ (run.inputs u).ld = true) ∧
    ∀ i, u < i → i < n → (run.inputs i).rst = true ∧
      ¬ ((run.inputs i).mode = false ∧ (run.inputs i).ld = true)

/-- The decryption core completes before clock `n` for the load at clock `u`. It takes a
clock longer if it shows an earlier completion when it is loaded, and its last clock may
be a clock of reset. -/
def Run.Decrypted (run : Run) (u n : Nat) : Prop :=
  (n = u + if (run.state u).decipher.done then 13 else 12) ∧
    ((run.inputs u).rst = true ∧ (run.inputs u).mode = true ∧ (run.inputs u).ld = true) ∧
    (∀ i, u < i → i + 1 < n → (run.inputs i).rst = true) ∧
    ∀ i, u < i → i < n → ¬ ((run.inputs i).mode = true ∧ (run.inputs i).ld = true)

/-- The load at clock `u` is answered before clock `n`, by the core that it loads. -/
def Run.Answered (run : Run) (u n : Nat) : Prop := run.Encrypted u n ∨ run.Decrypted u n

/-- The encryption core completes for one of its loads. The history that its counter
remembers is the load with the clocks after it. -/
theorem encrypted_iff (run : Run) (cleared : (run.inputs 0).rst = false) {n : Nat} (later : 0 < n) :
    (run.state n).cipher.done = true ↔ ∃ u, run.Encrypted u n := by
  rw [state_cipher, CipherTop.done_since run.start.cipher (m := 0) cleared later, Clocked.since_iff]
  constructor
  · rintro ⟨u, same, fired, quiet⟩
    refine ⟨u, by omega, ⟨fired.1, (ld_e_iff _).mp fired.2⟩, fun i after before => ?_⟩
    obtain ⟨running, idle⟩ := quiet i after before
    exact ⟨running, fun loaded => Bool.false_ne_true (idle.symm.trans ((ld_e_iff _).mpr loaded))⟩
  · rintro ⟨u, same, ⟨running, loaded⟩, quiet⟩
    refine ⟨u, by omega, ⟨running, (ld_e_iff _).mpr loaded⟩, fun i after before => ?_⟩
    obtain ⟨still, idle⟩ := quiet i after before
    exact ⟨still, Bool.eq_false_iff.mpr fun again => idle ((ld_e_iff _).mp again)⟩

/-- The decryption core completes for one of its loads, which has found its core idle, busy
or done. In the last case alone the count starts a clock later. -/
theorem decrypted_iff (run : Run) (cleared : (run.inputs 0).rst = false)
    (again : (run.inputs 1).rst = false) {n : Nat} (later : 2 ≤ n) :
    (run.state n).decipher.done = true ↔ ∃ u, run.Decrypted u n := by
  rw [state_decipher]
  obtain rfl | ⟨n, rfl, after⟩ : n = 2 ∨ ∃ k, n = k + 1 ∧ 2 ≤ k := by
    rcases Nat.lt_or_eq_of_le later with after | same
    · exact Or.inr ⟨n - 1, by omega, by omega⟩
    · exact Or.inl same.symm
  · rw [(decipher_idle run cleared again).done]
    constructor
    · intro impossible
      exact absurd impossible Bool.false_ne_true
    · rintro ⟨u, same, _⟩
      split at same <;> omega
  · rw [InvCipherTop.done_iff_counted run.decipher cleared again after]
    constructor
    · rintro ⟨⟨u, _, fired, stretch, started⟩, idle⟩
      refine ⟨u, ?_, ⟨fired.1, (ld_d_iff _).mp fired.2⟩,
        fun i after before => (stretch i after (by omega)).1, fun i after before loaded => ?_⟩
      · rw [state_decipher]
        rcases started with ⟨free, _, same⟩ | ⟨finished, same⟩
        · rw [free, same]
          rfl
        · rw [finished, same, if_pos rfl]
      · have none : ldD (run.inputs i) = false := by
          rcases Nat.lt_succ_iff_lt_or_eq.mp before with earlier | rfl
          · exact (stretch i after earlier).2
          · exact idle
        exact Bool.false_ne_true (none.symm.trans ((ld_d_iff _).mpr loaded))
    · rintro ⟨u, same, ⟨running, loaded⟩, still, idle⟩
      have none (i : Nat) (after : u < i) (before : i < n + 1) : ldD (run.inputs i) = false :=
        Bool.eq_false_iff.mpr fun again => idle i after before ((ld_d_iff _).mp again)
      have from' : 2 ≤ u := by
        by_contra early
        obtain rfl | rfl : u = 0 ∨ u = 1 := by omega
        · exact Bool.false_ne_true (cleared.symm.trans running)
        · exact Bool.false_ne_true (again.symm.trans running)
      rw [state_decipher] at same
      refine ⟨⟨u, from', ⟨running, (ld_d_iff _).mpr loaded⟩, fun i after before =>
        ⟨still i after (by omega), none i after (by omega)⟩, ?_⟩, none n ?_ (Nat.lt_succ_self n)⟩
      · cases finished : (run.decipher.state u).done
        · rw [finished, if_neg Bool.false_ne_true] at same
          exact Or.inl ⟨rfl, by decide, by omega⟩
        · rw [finished, if_pos rfl] at same
          exact Or.inr ⟨rfl, by omega⟩
      · split at same <;> omega

/-- The interface shows a completion where a load is answered, on either core, and nowhere
else. -/
theorem done_iff_answered (run : Run) (cleared : (run.inputs 0).rst = false)
    (again : (run.inputs 1).rst = false) {n : Nat} (later : 2 ≤ n) :
    done (run.state n) = some true ↔ ∃ u, run.Answered u n := by
  rw [done_iff, encrypted_iff run cleared (by omega), decrypted_iff run cleared again later,
    ← exists_or]
  rfl

/-- No load is answered twice. A load belongs to one core, and what the core showed when it
was loaded determines how long it takes. -/
theorem answered_once {run : Run} {u n m : Nat} (first : run.Answered u n)
    (second : run.Answered u m) : n = m := by
  rcases first with ⟨same, loaded, _⟩ | ⟨same, loaded, _⟩
  · rcases second with ⟨other, _⟩ | ⟨_, again, _⟩
    · exact same.trans other.symm
    · exact absurd (loaded.2.1.symm.trans again.2.1) Bool.false_ne_true
  · rcases second with ⟨_, again, _⟩ | ⟨other, _⟩
    · exact absurd (again.2.1.symm.trans loaded.2.1) Bool.false_ne_true
    · exact same.trans other.symm

/-- An answer takes twelve or thirteen clocks. So loads two clocks apart are answered in
their order, and the others have to be looked at. -/
theorem answered_after {run : Run} {u n : Nat} (answered : run.Answered u n) :
    u + 12 ≤ n ∧ n ≤ u + 13 := by
  rcases answered with ⟨same, _⟩ | ⟨same, _⟩
  · omega
  · split at same <;> omega

/-- An answer that takes thirteen clocks and arrives with the answer to the next load is
half of a collision. The first load was a decryption that found `done`, the second an
encryption. -/
theorem collides_of_tie {run : Run} {u : Nat} (first : run.Answered u (u + 13))
    (second : run.Answered (u + 1) (u + 13)) : run.Collides u := by
  rcases first with ⟨same, _⟩ | ⟨same, decryption, _, idle⟩
  · omega
  · have late : (run.state u).decipher.done = true := by
      by_contra free
      rw [if_neg free] at same
      omega
    rcases second with ⟨_, encryption, quiet⟩ | ⟨_, again, _⟩
    · refine ⟨late, decryption, encryption, fun i after before => ?_⟩
      obtain ⟨running, none⟩ := quiet i after (by omega)
      refine ⟨running, Bool.eq_false_iff.mpr fun loaded => ?_⟩
      cases mode : (run.inputs i).mode
      · exact none ⟨mode, loaded⟩
      · exact idle i (by omega) (by omega) ⟨mode, loaded⟩
    · exact absurd again.2 (idle (u + 1) (by omega) (by omega))

/-- The two loads of a collision are answered together, the decryption in thirteen clocks
and the encryption in twelve. -/
theorem tie_of_collides {run : Run} {u n m : Nat} (collides : run.Collides u)
    (first : run.Answered u n) (second : run.Answered (u + 1) m) : n = m := by
  have decryption : n = u + 13 := by
    rcases first with ⟨_, encryption, _⟩ | ⟨same, _⟩
    · exact absurd (encryption.2.1.symm.trans collides.decryption.2.1) Bool.false_ne_true
    · rwa [if_pos collides.late] at same
  rcases second with ⟨same, _⟩ | ⟨_, again, _⟩
  · omega
  · exact absurd (collides.encryption.2.1.symm.trans again.2.1) Bool.false_ne_true

/-- No answer overtakes another, and two answers arrive together in a collision only. Since
latencies differ by one clock at most, only loads in successive clocks can meet. -/
theorem answered_in_order {run : Run} {u v n m : Nat} (first : run.Answered u n)
    (second : run.Answered v m) (ordered : u < v) :
    n ≤ m ∧ (n = m ↔ v = u + 1 ∧ run.Collides u) := by
  have bounds := answered_after first
  have others := answered_after second
  refine ⟨by omega, ?_, ?_⟩
  · rintro rfl
    obtain ⟨rfl, rfl⟩ : v = u + 1 ∧ n = u + 13 := by omega
    exact ⟨rfl, collides_of_tie first second⟩
  · rintro ⟨rfl, collides⟩
    exact tie_of_collides collides first second

/-- The answer to an encryption is its ciphertext. Where both cores complete, the interface
shows the encryption, so this holds in a collision too. -/
theorem encrypted_text {run : Run} (cleared : (run.inputs 0).rst = false) {u n : Nat}
    (encrypted : run.Encrypted u n) :
    textOut (run.state n) = some (cipher (run.inputs u).key (run.inputs u).textIn) := by
  obtain ⟨rfl, ⟨_, mode, ld⟩, quiet⟩ := id encrypted
  have completed := (encrypted_iff run cleared (Nat.succ_pos (u + 11))).mpr ⟨u, encrypted⟩
  rw [(cipher_visible completed).2, state_cipher]
  refine congrArg some (CipherTop.text_out_after_load run.start.cipher run.cipher
    ((ld_e_iff _).mpr ⟨mode, ld⟩) fun i after before => ?_)
  exact Bool.eq_false_iff.mpr fun again => (quiet i after (by omega)).2 ((ld_e_iff _).mp again)

/-- The interface answers in order. After two clocks of reset it shows a completion exactly
where a load is answered; an answered encryption is shown as its ciphertext; each load is
answered at most once; and of two loads the earlier one is answered first, or together
with the later one if and only if they collide. -/
theorem answers_in_order (run : Run)
    (reset : (run.inputs 0).rst = false ∧ (run.inputs 1).rst = false) :
    (∀ n, 2 ≤ n → (done (run.state n) = some true ↔ ∃ u, run.Answered u n)) ∧
      (∀ u n, run.Encrypted u n →
        textOut (run.state n) = some (cipher (run.inputs u).key (run.inputs u).textIn)) ∧
      (∀ u n m, run.Answered u n → run.Answered u m → n = m) ∧
      ∀ u v n m, run.Answered u n → run.Answered v m → u < v →
        n ≤ m ∧ (n = m ↔ v = u + 1 ∧ run.Collides u) := by
  obtain ⟨cleared, again⟩ := reset
  refine ⟨fun n later => done_iff_answered run cleared again later, fun u n encrypted => ?_,
    fun u n m first second => answered_once first second,
    fun u v n m first second ordered => answered_in_order first second ordered⟩
  exact encrypted_text cleared encrypted

/-- The two loads of a collision, answered by one completion, with the text of the
encryption. -/
theorem answers_in_order_colliding : collidingRun.Answered 26 39 ∧ collidingRun.Answered 27 39 ∧
    done (collidingRun.state 39) = some true := by
  have clear {i : Nat} (after : 27 < i) : (collidingRun.inputs i).ld = false :=
    colliding_ld_clear (by omega) (by omega) (by omega)
  have decrypted : collidingRun.Answered 26 39 := by
    refine Or.inr ⟨by rw [if_pos colliding.late], colliding.decryption,
      fun i after _ => decide_eq_true (by omega), fun i after before loaded => ?_⟩
    by_cases encryption : i = 27
    · subst encryption
      exact absurd loaded.1 (by decide)
    · exact Bool.false_ne_true ((clear (by omega)).symm.trans loaded.2)
  have encrypted : collidingRun.Answered 27 39 :=
    Or.inl ⟨rfl, colliding.encryption, fun i after _ =>
      ⟨decide_eq_true (by omega), fun loaded =>
        Bool.false_ne_true ((clear after).symm.trans loaded.2)⟩⟩
  exact ⟨decrypted, encrypted,
    ((answers_in_order collidingRun ⟨rfl, rfl⟩).1 39 (by decide)).mpr ⟨26, decrypted⟩⟩

end AesCore.AesTop
