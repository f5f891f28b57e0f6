import AesCore.Clocked
import AesCore.GoldenCipher

/-!
# The golden model

The C side of the test bench: global variables, and the functions that the test calls
once in each iteration to hand over a transaction and to read the answer back. The
counter `status` is one in the iteration of a load and advances by one in each later
one; at fourteen the model encrypts what it has stored, answers, and returns to zero.

A reset acts on `status` one iteration after it was sent, and on the answer in the
iteration itself. `send_ld_rst` exempts status fourteen from the former, but `get_done`
has put that status back to zero by then, so the exemption never applies.
-/

namespace AesCore.GoldenModel

open Fips197
open WordArray GoldenCipher

/-- The global variables, with the types of C: the numbers are integers that never leave the
range of `int`, and the arrays have the four words that the cipher for 128 bits uses. -/
structure Globals where
  rst : Int
  ld : Int
  status : Int
  done : Int
  ctext : WordArray
  state : WordArray
  key : WordArray
  deriving DecidableEq

/-- An array of four zero words, which global arrays hold before anything is stored in
them. -/
def zeros : WordArray := four 0#32 0#32 0#32 0#32

/-- Their values when the program starts. All are zero, `rst` included, so the first call of
`send_ld_rst` finds a reset. -/
def initial : Globals := ⟨0, 0, 0, 0, zeros, zeros, zeros⟩

/-- The constant `s_ct`, the status at which the model completes. -/
def sCt : Int := 14

/-- Function `send_ld_rst`. The reset it looks at is that of the call before, which is still
in the global variable; the new one is stored at the end. -/
def sendLdRst (g : Globals) (l rt : Int) : Globals :=
  let g := { g with ld := l }
  let g := if g.rst = 0 ∧ g.status ≠ 14 then { g with status := 0 } else g
  let g := if g.status ≥ 1 then { g with status := g.status + 1 } else g
  let g := if g.ld = 1 then { g with status := 1 } else g
  { g with rst := rt }

/-- Function `rebuild_text`. A word of the text is stored at status one, which is the
iteration of a load. -/
def rebuildText (g : Globals) (tState : Word) (i : Fin 4) : Globals :=
  if g.status = 1 then { g with state := g.state.set i tState } else g

/-- Function `rebuild_key`. A word of the key is stored at status one, as those of the text
are. -/
def rebuildKey (g : Globals) (tKey : Word) (i : Fin 4) : Globals :=
  if g.status = 1 then { g with key := g.key.set i tKey } else g

/-- Function `rearrange_text`. After the last word it reverses the bytes of the stored text,
whose first byte the pins carry in their highest bits. -/
def rearrangeText (g : Globals) : Globals :=
  if g.status = 1 then { g with state := reversed g.state } else g

/-- Function `rearrange_key`. It reverses the bytes of the stored key in the same way. -/
def rearrangeKey (g : Globals) : Globals :=
  if g.status = 1 then { g with key := reversed g.key } else g

/-- Function `generate_ciphertext`. Its argument hides the global variable `rst`, and the
answer is computed in place: what was stored is overwritten by its ciphertext. -/
def generateCiphertext (g : Globals) (rst : Int) : Globals :=
  let g := if g.status = sCt ∧ rst ≠ 0
    then { g with state := encrypt128KeyExpandInlineNoBranch g.state g.key } else g
  { g with ctext := g.state }

/-- Function `rearrange_cipher`. It brings the bytes of the answer back into the order of
the pins. -/
def rearrangeCipher (g : Globals) : Globals :=
  if g.status = sCt then { g with ctext := reversed g.ctext } else g

/-- Function `get_ciphertext`. During a reset the word it gives is zero, and the array loses
it. -/
def getCiphertext (g : Globals) (i : Fin 4) : Globals × Word :=
  let g := if g.rst = 0 then { g with ctext := g.ctext.set i 0#32 } else g
  (g, g.ctext.get i)

/-- Function `get_status`. The test calls it before `get_done`, so it still reads fourteen
in the iteration of the answer. -/
def getStatus (g : Globals) : Int := g.status

/-- Function `get_done`. It also puts the status back to zero, so that no later call finds
fourteen. -/
def getDone (g : Globals) : Globals × Int :=
  let g := if g.status = sCt then { g with done := 1, status := 0 } else { g with done := 0 }
  (g, g.done)

/-- What the test draws for an iteration: the two control bits, a key as the pins carry it,
and a text of four words. -/
structure Transaction where
  rst : Bool
  ld : Bool
  key : Block
  text : WordArray

/-- What the test reads back in an iteration: the words of the answer, the status and the
bit `done`. -/
structure Outcome where
  ctext : WordArray
  status : Int
  done : Int
  deriving DecidableEq

/-- The calls by which `do_cycle` hands a transaction over, in their order. The words of the
text come from an array, those of the key are cut from a block. -/
def handOver (t : Transaction) (g : Globals) : Globals :=
  let g := sendLdRst g t.ld.toInt t.rst.toInt
  let g := rebuildText g (t.text.get 0) 0
  let g := rebuildText g (t.text.get 1) 1
  let g := rebuildText g (t.text.get 2) 2
  let g := rebuildText g (t.text.get 3) 3
  let g := rearrangeText g
  let g := rebuildKey g (t.key.extractLsb 31 0) 0
  let g := rebuildKey g (t.key.extractLsb 63 32) 1
  let g := rebuildKey g (t.key.extractLsb 95 64) 2
  let g := rebuildKey g (t.key.extractLsb 127 96) 3
  rearrangeKey g

/-- The calls by which it reads the answer back. The test calls `generate_ciphertext`
without an argument, so what the function finds there is a parameter of the model. -/
def readBack (argument : Int) (g : Globals) : Globals × Outcome :=
  let g := generateCiphertext g argument
  let g := rearrangeCipher g
  let (g, ctext0) := getCiphertext g 0
  let (g, ctext1) := getCiphertext g 1
  let (g, ctext2) := getCiphertext g 2
  let (g, ctext3) := getCiphertext g 3
  let status := getStatus g
  let (g, done) := getDone g
  (g, ⟨four ctext0 ctext1 ctext2 ctext3, status, done⟩)

/-- The C side of one iteration of `do_cycle`: a transaction is handed over and the answer
of an earlier one is read back. -/
def doCycle (argument : Int) (t : Transaction) (g : Globals) : Globals × Outcome :=
  readBack argument (handOver t g)

/-- A key on the pins, cut into words. Word zero holds the lowest bits, which are the last
bytes of the key. -/
def keyWords (key : Block) : WordArray :=
  four (key.extractLsb 31 0) (key.extractLsb 63 32) (key.extractLsb 95 64) (key.extractLsb 127 96)

/-- The words of a key make up that key, since they cover its bits without overlap. -/
theorem block_key_words (key : Block) : block (keyWords key) = key :=
  ((eq_block_iff key (keyWords key)).mpr ⟨rfl, rfl, rfl, rfl⟩).symm

/-- Writing all four words of an array leaves nothing of it. So what is stored at a load
does not depend on what was stored before. -/
theorem set_words (words : WordArray) (w0 w1 w2 w3 : Word) :
    (((words.set (0 : Fin 4) w0).set (1 : Fin 4) w1).set (2 : Fin 4) w2).set (3 : Fin 4) w3 =
      four w0 w1 w2 w3 := by
  change (((words.set 0 w0).set 1 w1).set 2 w2).set 3 w3 = _
  refine Vector.ext fun i inside => ?_
  match i with
  | 0 | 1 | 2 | 3 => simp [four]

/-- Reading all four words of an array gives all of it, and the answer is the whole
array. -/
theorem words_get (words : WordArray) :
    four (words.get 0) (words.get 1) (words.get 2) (words.get 3) = words := by
  refine Vector.ext fun i inside => ?_
  match i with
  | 0 | 1 | 2 | 3 => rfl

/-- Below status fourteen, `send_ld_rst` starts on a load, falls back after a reset, and
counts otherwise. It stores the reset for the next call. -/
theorem send_ld_rst_eq (g : Globals) (l rt : Int) (below : g.status ≠ 14) :
    sendLdRst g l rt = { g with
      ld := l
      rst := rt
      status := if l = 1 then 1 else if g.rst = 0 then 0
        else if g.status ≥ 1 then g.status + 1 else g.status } := by
  by_cases load : l = 1 <;> by_cases reset : g.rst = 0 <;> by_cases counting : g.status ≥ 1 <;>
    simp [sendLdRst, load, reset, counting, below]

/-- At status one the transaction is stored, its bytes reversed. All eight words are written
in the same iteration, so nothing of an earlier transaction is left. -/
theorem hand_over_loaded {t : Transaction} {g : Globals}
    (loaded : (sendLdRst g t.ld.toInt t.rst.toInt).status = 1) :
    handOver t g = { sendLdRst g t.ld.toInt t.rst.toInt with
      state := reversed t.text
      key := reversed (keyWords t.key) } := by
  simp only [handOver, rebuildText, rearrangeText, rebuildKey, rearrangeKey, loaded, ↓reduceIte,
    set_words, keyWords]
  rfl

/-- At any other status it is ignored. The functions are called in every iteration, but each
of them looks at the status first. -/
theorem hand_over_ignored {t : Transaction} {g : Globals}
    (ignored : (sendLdRst g t.ld.toInt t.rst.toInt).status ≠ 1) :
    handOver t g = sendLdRst g t.ld.toInt t.rst.toInt := by
  simp only [handOver, rebuildText, rearrangeText, rebuildKey, rearrangeKey, ignored, ↓reduceIte]

/-- Storing changes neither the status nor the reset, so both are those that `send_ld_rst`
leaves. -/
theorem hand_over_control (t : Transaction) (g : Globals) :
    (handOver t g).status = (sendLdRst g t.ld.toInt t.rst.toInt).status ∧
      (handOver t g).rst = (sendLdRst g t.ld.toInt t.rst.toInt).rst := by
  by_cases loaded : (sendLdRst g t.ld.toInt t.rst.toInt).status = 1
  · rw [hand_over_loaded loaded]
    exact ⟨rfl, rfl⟩
  · rw [hand_over_ignored loaded]
    exact ⟨rfl, rfl⟩

/-- Away from status fourteen, nothing is answered and nothing is lost. Besides `done` only
the answer array changes, and the checker compares it at status fourteen only. -/
theorem read_back_idle (argument : Int) {g : Globals} (idle : g.status ≠ sCt) :
    (readBack argument g).2.done = 0 ∧ (readBack argument g).2.status = g.status ∧
      (readBack argument g).1.status = g.status ∧ (readBack argument g).1.rst = g.rst ∧
        (readBack argument g).1.state = g.state ∧ (readBack argument g).1.key = g.key := by
  by_cases reset : g.rst = 0 <;>
    simp [readBack, generateCiphertext, rearrangeCipher, getCiphertext, getStatus, getDone, idle,
      reset]

/-- At status fourteen the model is done and returns to status zero, with the reset kept
for the next call. The argument of `generate_ciphertext` decides what is answered, and
nothing of this. -/
theorem read_back_complete (argument : Int) {g : Globals} (complete : g.status = sCt) :
    (readBack argument g).2.done = 1 ∧ (readBack argument g).2.status = sCt ∧
      (readBack argument g).1.status = 0 ∧ (readBack argument g).1.rst = g.rst := by
  by_cases passed : argument = 0 <;> by_cases reset : g.rst = 0 <;>
    simp [readBack, generateCiphertext, rearrangeCipher, getCiphertext, getStatus, getDone,
      complete, passed, reset]

/-- Where the argument lets `generate_ciphertext` encrypt, the ciphertext of what is
stored is answered at status fourteen, or zero during a reset. -/
theorem read_back_answer {argument : Int} {g : Globals} (complete : g.status = sCt)
    (passed : argument ≠ 0) :
    (readBack argument g).2.ctext = if g.rst = 0 then zeros
      else reversed (encrypt128KeyExpandInlineNoBranch g.state g.key) := by
  have written (words : WordArray) (i : Fin 4) : (words.set i 0#32).get i = 0#32 :=
    Vector.getElem_set_self i.isLt
  by_cases reset : g.rst = 0
  · simp only [readBack, generateCiphertext, rearrangeCipher, getCiphertext, getStatus, getDone,
      complete, passed, reset, ne_eq, not_false_eq_true, and_self, ↓reduceIte, written, zeros]
  · simp only [readBack, generateCiphertext, rearrangeCipher, getCiphertext, getStatus, getDone,
      complete, passed, reset, ne_eq, not_false_eq_true, and_self, ↓reduceIte, words_get]

/-- The encryption of a stored transaction, its bytes reversed again, is its ciphertext.
Reversing all bytes of the array exchanges the order of the pins with that of the
standard. -/
theorem block_encrypt (text : WordArray) (key : Block) :
    block (reversed (encrypt128KeyExpandInlineNoBranch (reversed text) (reversed (keyWords key)))) =
      cipher key (block text) := by
  have words : keyView (reversed (keyWords key)) = blockWord key := by
    rw [key_view_reversed_block, block_key_words]
  rw [block_reversed rfl, view_encrypt words (view_reversed_block text)]

/-- Four zero words are the zero block, which is the answer that a reset leaves. -/
theorem block_zeros : block zeros = 0#128 := by decide

section Run
variable (argument : Nat → Int) (transactions : Nat → Transaction)

/-- The global variables before each iteration of a run, from those with which the program
starts. -/
def globals : Nat → Globals :=
  Clocked.run (fun n g => (doCycle (argument n) (transactions n) g).1) initial

/-- What each iteration reads back, with the variables that the iterations before it have
left. -/
def outcome (n : Nat) : Outcome :=
  (doCycle (argument n) (transactions n) (globals argument transactions n)).2

/-- An iteration that starts the count. A load does so even in a reset, which is looked at
only in the next iteration. -/
def Loads (n : Nat) : Prop := (transactions n).ld = true

/-- An iteration that lets the count go on: the reset of the iteration before it is what
`send_ld_rst` looks at. -/
def Counts (n : Nat) : Prop := (transactions n).ld = false ∧ (transactions (n - 1)).rst = true

/-- What the global variables know before iteration `n`: the status is the number of
iterations since a load that nothing has cancelled, that load included, and its transaction
is stored. The status is below fourteen, because the answer has put it back. -/
structure Tracks (n : Nat) (g : Globals) : Prop where
  bounded : 0 ≤ g.status ∧ g.status ≤ 13
  counting : ∀ k : Nat, k ≤ 12 →
    (g.status = k + 1 ↔ Clocked.Since (Loads transactions) (Counts transactions) k n)
  reset : 0 < n → g.rst = (transactions (n - 1)).rst.toInt
  stored : ∀ k, k ≤ 12 → Clocked.Since (Loads transactions) (Counts transactions) k n →
    g.state = reversed (transactions (n - 1 - k)).text ∧
      g.key = reversed (keyWords (transactions (n - 1 - k)).key)

variable {argument transactions}

/-- Where the model counts, it has seen no reset. The variable `rst` still holds the reset
of the iteration before. -/
theorem counts_iff {n : Nat} {g : Globals} (tracks : Tracks transactions n g) (later : 0 < n)
    (unloaded : (transactions n).ld = false) : Counts transactions n ↔ g.rst ≠ 0 := by
  rw [Counts, tracks.reset later]
  cases (transactions (n - 1)).rst <;> simp [unloaded]

/-- The status after `send_ld_rst` counts this iteration too, so it reaches fourteen here
and nowhere else. A load, a reset and a count are the three cases. -/
theorem sent_status {n : Nat} {g : Globals} (tracks : Tracks transactions n g) :
    let sent := sendLdRst g (transactions n).ld.toInt (transactions n).rst.toInt
    (0 ≤ sent.status ∧ sent.status ≤ 14) ∧ ∀ k : Nat, k ≤ 13 →
      (sent.status = k + 1 ↔
        Clocked.Since (Loads transactions) (Counts transactions) k (n + 1)) := by
  have bounded := tracks.bounded
  rw [send_ld_rst_eq _ _ _ (by omega)]
  cases load : (transactions n).ld with
  | true =>
    have never : ¬ Counts transactions n := fun counts =>
      Bool.false_ne_true (counts.1.symm.trans load)
    simp only [Bool.toInt_true, ↓reduceIte]
    refine ⟨by omega, fun k _ => ?_⟩
    cases k with
    | zero => simp [Clocked.Since, Loads, load]
    | succ k =>
      simp only [Clocked.Since, never, and_false, iff_false]
      omega
  | false =>
    have unloaded : ¬ Loads transactions n := fun loads =>
      Bool.false_ne_true (load.symm.trans loads)
    simp only [Bool.toInt_false, show ¬(0 : Int) = 1 by decide, ↓reduceIte]
    refine ⟨by omega, fun k small => ?_⟩
    cases k with
    | zero =>
      simp only [Clocked.Since, unloaded, iff_false]
      omega
    | succ k =>
      have earlier := tracks.counting k (by omega)
      by_cases first : n = 0
      · subst first
        simp only [Clocked.Since, false_and, iff_false] at earlier ⊢
        omega
      · rw [Clocked.Since, ← earlier, counts_iff tracks (by omega) load]
        omega

/-- Nothing is known at the start: no load has happened, and the status is zero. -/
theorem tracks_initial : Tracks transactions 0 initial where
  bounded := by decide
  counting k _ := by
    simp only [initial, Clocked.Since, iff_false]
    omega
  reset later := absurd later (Nat.lt_irrefl 0)
  stored _ _ since := by simp only [Clocked.Since] at since

/-- Every iteration keeps track. Only a load stores, and only the iteration that answers
changes what is stored without one; there the count has ended. -/
theorem tracks_step {n : Nat} {g : Globals} (tracks : Tracks transactions n g) :
    Tracks transactions (n + 1) (doCycle (argument n) (transactions n) g).1 := by
  obtain ⟨within, counting⟩ := sent_status tracks
  obtain ⟨status, reset⟩ := hand_over_control (transactions n) g
  have bounded := tracks.bounded
  have sent := send_ld_rst_eq g (transactions n).ld.toInt (transactions n).rst.toInt (by omega)
  by_cases complete : (handOver (transactions n) g).status = sCt
  · obtain ⟨_, _, zero, kept⟩ := read_back_complete (argument n) complete
    have ended (k : Nat) (small : k ≤ 12) :
        ¬ Clocked.Since (Loads transactions) (Counts transactions) k (n + 1) := by
      rw [← counting k (by omega), ← status, complete, sCt]
      omega
    refine ⟨?_, fun k small => ?_, fun _ => ?_, fun k small since => absurd since (ended k small)⟩
    · rw [doCycle, zero]
      decide
    · simp only [doCycle, zero, ended k small, iff_false]
      omega
    · rw [doCycle, kept, reset, sent]
      rfl
  · obtain ⟨_, _, same, kept, state, key⟩ := read_back_idle (argument n) complete
    have below : (handOver (transactions n) g).status ≠ 14 := complete
    refine ⟨?_, fun k small => ?_, fun _ => ?_, fun k small since => ?_⟩
    · rw [doCycle, same]
      omega
    · rw [doCycle, same, status]
      exact counting k (by omega)
    · rw [doCycle, kept, reset, sent]
      rfl
    · rw [doCycle, state, key]
      have position := (counting k (by omega)).mpr since
      cases k with
      | zero =>
        rw [hand_over_loaded position]
        exact ⟨rfl, rfl⟩
      | succ k =>
        rw [hand_over_ignored (by omega), sent]
        rw [show n + 1 - 1 - (k + 1) = n - 1 - k by omega]
        exact tracks.stored k (by omega) since.1

/-- Whatever the transactions are, and whatever `generate_ciphertext` finds in place of its
argument, the model keeps track of them. The induction is over the iterations. -/
theorem tracks_run (argument : Nat → Int) (transactions : Nat → Transaction) (n : Nat) :
    Tracks transactions n (globals argument transactions n) :=
  Clocked.run_invariant (Tracks transactions) tracks_initial
    (fun _ _ _ tracks => tracks_step tracks) n (Nat.zero_le n)

/-- The status that the test reads is the number of iterations since the load, that of the
load included, and never exceeds fourteen. The argument of `generate_ciphertext` has no part
in it. -/
theorem outcome_status (argument : Nat → Int) (n : Nat) :
    (outcome argument transactions n).status ≤ 14 ∧ ∀ k : Nat, k ≤ 13 →
      ((outcome argument transactions n).status = k + 1 ↔
        Clocked.Since (Loads transactions) (Counts transactions) k (n + 1)) := by
  have same : (outcome argument transactions n).status =
      (sendLdRst (globals argument transactions n) (transactions n).ld.toInt
        (transactions n).rst.toInt).status := by
    rw [← (hand_over_control _ _).1, outcome, doCycle]
    by_cases complete : (handOver (transactions n) (globals argument transactions n)).status = sCt
    · rw [(read_back_complete _ complete).2.1, complete]
    · rw [(read_back_idle _ complete).2.1]
  obtain ⟨within, counting⟩ := sent_status (tracks_run argument transactions n)
  rw [same]
  exact ⟨within.2, counting⟩

/-- The model is done in the fourteenth iteration of a load, and in no other. Like the
status, this does not depend on the argument of `generate_ciphertext`. -/
theorem outcome_done (argument : Nat → Int) (n : Nat) :
    (Clocked.Since (Loads transactions) (Counts transactions) 13 (n + 1) →
      (outcome argument transactions n).done = 1) ∧
    (¬ Clocked.Since (Loads transactions) (Counts transactions) 13 (n + 1) →
      (outcome argument transactions n).done = 0) := by
  obtain ⟨_, counting⟩ := sent_status (tracks_run argument transactions n)
  rw [← counting 13 (Nat.le_refl 13), ← (hand_over_control _ _).1]
  exact ⟨fun complete => (read_back_complete _ complete).1,
    fun idle => (read_back_idle _ idle).1⟩

/-- What it answers then is the ciphertext of the load, or zero during a reset. For this the
argument of `generate_ciphertext` must not be zero, or the text would stay as it was
stored. -/
theorem outcome_ctext (passed : ∀ n, argument n ≠ 0) {n : Nat}
    (since : Clocked.Since (Loads transactions) (Counts transactions) 13 (n + 1)) :
    block (outcome argument transactions n).ctext =
      if (transactions n).rst then
        cipher (transactions (n - 13)).key (block (transactions (n - 13)).text)
      else 0#128 := by
  have tracks := tracks_run argument transactions n
  have bounded := tracks.bounded
  obtain ⟨_, counting⟩ := sent_status tracks
  have sent := send_ld_rst_eq (globals argument transactions n) (transactions n).ld.toInt
    (transactions n).rst.toInt (by omega)
  have complete := (counting 13 (Nat.le_refl 13)).mpr since
  obtain ⟨state, key⟩ := tracks.stored 12 (Nat.le_refl 12) since.1
  have ignored := hand_over_ignored (t := transactions n) (g := globals argument transactions n)
    (by omega)
  have answer := read_back_answer (ignored ▸ complete) (passed n)
  rw [outcome, doCycle, answer, ignored, sent, state, key, show n - 1 - 12 = n - 13 by omega]
  cases (transactions n).rst with
  | true => exact block_encrypt _ _
  | false => exact block_zeros

end Run

end AesCore.GoldenModel
