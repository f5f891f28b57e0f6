/-!
# Formatted input

A file that is read from the front: the characters still to come, and whether a read
has looked for a character past the last one, which is what the end-of-file test
reports. A string field is a run of characters that are not white space, an integer
field an optional sign and a run of digits. Either skips white space before it, and
takes as many characters as it can.

A word reads a file on, or finds its end, so a program that reads words until the end
of the file comes to it.
-/

namespace Scanf

/-- What is left of a file, and whether its end has been seen. The end is seen when a read
runs into it, which is what `feof` reports. -/
structure Input where
  rest : List Char
  ended : Bool

/-- White space, which separates the fields of a file: blanks, tabs, and the ends of lines
and pages. -/
def isSpace (c : Char) : Bool := c == ' ' || c == '\t' || c == '\n' || c == '\x0c'

/-- Not white space: a character that a field `%s` takes. -/
def isWord (c : Char) : Bool := !isSpace c

/-- Read all characters up to the first without the property. If there is none, the read
runs into the end of the file. -/
def Input.span (i : Input) (p : Char → Bool) : List Char × Input :=
  (i.rest.takeWhile p, ⟨i.rest.dropWhile p, i.ended || (i.rest.dropWhile p).isEmpty⟩)

/-- Skip white space, as both fields do before they read. At the end of a file this sees the
end. -/
def Input.skip (i : Input) : Input := (i.span isSpace).2

/-- The field `%s`: after white space, all characters up to the next one. Without any, there
is no field. -/
def Input.word (i : Input) : Option (List Char) × Input :=
  let field := i.skip.span isWord
  (if field.1 = [] then none else some field.1, field.2)

/-- An optional sign in front of the digits of a number. A sign without digits is consumed
as well. -/
def Input.sign (i : Input) : Int × Input :=
  match i.rest with
  | '-' :: rest => (-1, ⟨rest, i.ended⟩)
  | '+' :: rest => (1, ⟨rest, i.ended⟩)
  | _ => (1, i)

/-- The field `%d`: after white space, an optional sign and decimal digits, or no field.
What the language also allows in a decimal number is left out: underscores between the
digits, and the digits `x` and `z` of unknown values. -/
def Input.integer (i : Input) : Option Int × Input :=
  let sign := i.skip.sign
  let field := sign.2.span Char.isDigit
  (if field.1 = [] then none else some (sign.1 * (Nat.ofDigitChars 10 field.1 0 : Nat)), field.2)

/-- How many characters can be read, counting the end as one. Every loop up to the end of a
file makes it smaller. -/
def Input.left (i : Input) : Nat := if i.ended then 0 else i.rest.length + 1

/-- An integer as it is written, without leading zeros, and with a sign only if it is
negative. -/
def decimal : Int → List Char
  | .ofNat n => Nat.toDigits 10 n
  | .negSucc n => '-' :: Nat.toDigits 10 (n + 1)

/-- A run of characters ends where another character follows, which stays to be read.
Whether the end has been seen does not change. -/
theorem span_run {p : Char → Bool} {run : List Char} (whole : ∀ c ∈ run, p c = true) {next : Char}
    (outside : p next = false) (rest : List Char) (ended : Bool) :
    (Input.mk (run ++ next :: rest) ended).span p = (run, ⟨next :: rest, ended⟩) := by
  have taken : (run ++ next :: rest).takeWhile p = run := by
    rw [List.takeWhile_append_of_pos whole, List.takeWhile_cons_of_neg (by simp [outside]),
      List.append_nil]
  have dropped : (run ++ next :: rest).dropWhile p = next :: rest := by
    rw [List.dropWhile_append_of_pos whole, List.dropWhile_cons_of_neg (by simp [outside])]
  simp only [Input.span, taken, dropped, List.isEmpty_cons, Bool.or_false]

/-- White space before a character is skipped, all of it, and the character is left to be
read. -/
theorem skip_gap {gap : List Char} (spaces : ∀ c ∈ gap, isSpace c = true) {next : Char}
    (inked : isSpace next = false) (rest : List Char) (ended : Bool) :
    (Input.mk (gap ++ next :: rest) ended).skip = ⟨next :: rest, ended⟩ := by
  rw [Input.skip, span_run spaces inked]

/-- A word after white space, and before more of it, is read. The space behind the word
stays, so the end of the file has not been seen. -/
theorem read_word {gap name : List Char} (spaces : ∀ c ∈ gap, isSpace c = true)
    (nonempty : name ≠ []) (inked : ∀ c ∈ name, isSpace c = false) {space : Char}
    (blank : isSpace space = true) (rest : List Char) (ended : Bool) :
    (Input.mk (gap ++ (name ++ space :: rest)) ended).word =
      (some name, ⟨space :: rest, ended⟩) := by
  obtain ⟨first, others, rfl⟩ := List.exists_cons_of_ne_nil nonempty
  have skipped := skip_gap spaces (inked first (List.mem_cons_self)) (others ++ space :: rest) ended
  have whole : ∀ c ∈ first :: others, isWord c = true := fun c member => by
    rw [isWord, inked c member]
    rfl
  have stop : isWord space = false := by
    rw [isWord, blank]
    rfl
  have read := span_run whole stop rest ended
  rw [Input.word, List.cons_append, skipped, ← List.cons_append, read]
  rfl

/-- A character of a number is neither white space nor a sign, so it is not taken for the
gap or the sign in front of it. -/
theorem digit_inked {c : Char} (digit : c.isDigit = true) :
    isSpace c = false ∧ c ≠ '-' ∧ c ≠ '+' := by
  refine ⟨?_, ?_, ?_⟩
  · rw [Bool.eq_false_iff]
    intro space
    simp only [isSpace, Bool.or_eq_true, beq_iff_eq] at space
    rcases space with ((rfl | rfl) | rfl) | rfl <;> exact absurd digit (by decide)
  · rintro rfl
    exact absurd digit (by decide)
  · rintro rfl
    exact absurd digit (by decide)

/-- The digits of a written number, before white space, are read, and there is at least one
of them, also for zero. -/
theorem read_digits (n : Nat) {space : Char} (blank : isSpace space = true) (rest : List Char)
    (ended : Bool) :
    (Input.mk (Nat.toDigits 10 n ++ space :: rest) ended).span Char.isDigit =
        (Nat.toDigits 10 n, ⟨space :: rest, ended⟩) ∧
      Nat.toDigits 10 n ≠ [] := by
  have digits : ∀ c ∈ Nat.toDigits 10 n, c.isDigit = true := fun c member =>
    Nat.isDigit_of_mem_toDigits (by decide) (by decide) member
  have stop : space.isDigit = false := Bool.eq_false_iff.mpr fun digit =>
    Bool.false_ne_true ((digit_inked digit).1.symm.trans blank)
  exact ⟨span_run digits stop rest ended, List.ne_nil_of_length_pos Nat.length_toDigits_pos⟩

/-- A written integer after white space, and before more of it, is read. The two signs are
two cases, and the digits are those of the absolute value. -/
theorem read_integer {gap : List Char} (spaces : ∀ c ∈ gap, isSpace c = true) (value : Int)
    {space : Char} (blank : isSpace space = true) (rest : List Char) (ended : Bool) :
    (Input.mk (gap ++ (decimal value ++ space :: rest)) ended).integer =
      (some value, ⟨space :: rest, ended⟩) := by
  cases value with
  | ofNat n =>
    obtain ⟨read, nonempty⟩ := read_digits n blank rest ended
    obtain ⟨first, others, digits⟩ := List.exists_cons_of_ne_nil nonempty
    have digit : first.isDigit = true :=
      Nat.isDigit_of_mem_toDigits (b := 10) (n := n) (by decide) (by decide)
        (by rw [digits]; exact List.mem_cons_self)
    obtain ⟨inked, minus, plus⟩ := digit_inked digit
    have skipped := skip_gap spaces inked (others ++ space :: rest) ended
    have unsigned : (Input.mk (first :: (others ++ space :: rest)) ended).sign =
        (1, ⟨first :: (others ++ space :: rest), ended⟩) := by
      rw [Input.sign]
      split <;> simp_all
    rw [Input.integer, decimal, digits, List.cons_append, skipped, unsigned, ← List.cons_append,
      ← digits, read]
    simp [nonempty, Nat.ofDigitChars_toDigits]
  | negSucc n =>
    obtain ⟨read, nonempty⟩ := read_digits (n + 1) blank rest ended
    have inked : isSpace '-' = false := by decide
    have skipped := skip_gap spaces inked (Nat.toDigits 10 (n + 1) ++ space :: rest) ended
    rw [Input.integer, decimal, List.cons_append, skipped, Input.sign]
    simp only [read]
    simp [nonempty, Nat.ofDigitChars_toDigits, Int.negSucc_eq]

/-- Reading never adds to what is left. It leaves an end of what was there, and sees the end
of the file at most once. -/
theorem left_span (i : Input) (p : Char → Bool) : (i.span p).2.left ≤ i.left := by
  have shorter : (i.rest.dropWhile p).length ≤ i.rest.length := (List.dropWhile_sublist p).length_le
  cases ended : i.ended <;> simp only [Input.left, Input.span, ended, Bool.true_or, ↓reduceIte,
    Bool.false_or, Bool.false_eq_true, Nat.le_refl]
  split <;> omega

/-- Reading an integer never adds to what is left, even where there is none to be read. -/
theorem left_integer (i : Input) : i.integer.2.left ≤ i.left := by
  have signed (j : Input) : j.sign.2.left ≤ j.left := by
    rw [Input.sign]
    split
    · rename_i found
      simp only [Input.left, found, List.length_cons]
      split <;> omega
    · rename_i found
      simp only [Input.left, found, List.length_cons]
      split <;> omega
    · exact Nat.le_refl _
  calc i.integer.2.left ≤ i.skip.sign.2.left := left_span _ _
    _ ≤ i.skip.left := signed i.skip
    _ ≤ i.left := left_span i isSpace

/-- Reading a word leaves less than before: a character of it is gone, or the end has been
seen. So a loop that reads a word in every pass ends. -/
theorem left_word {i : Input} (more : i.ended = false) : i.word.2.left < i.left := by
  have start : i.left = i.rest.length + 1 := by simp [Input.left, more]
  have shorter : i.skip.rest.length ≤ i.rest.length := (List.dropWhile_sublist isSpace).length_le
  cases skipped : i.skip.rest with
  | nil =>
    have ended : i.skip.ended = true := by
      change (i.ended || (i.rest.dropWhile isSpace).isEmpty) = true
      rw [show i.rest.dropWhile isSpace = [] from skipped]
      simp
    have none : i.word.2.left = 0 := by
      simp [Input.word, Input.span, Input.left, ended]
    omega
  | cons first others =>
    have inked : isSpace first = false := by
      have head := List.head?_dropWhile_not isSpace i.rest
      rw [show i.rest.dropWhile isSpace = first :: others from skipped] at head
      simpa using head
    have read : i.word.2.rest = others.dropWhile isWord := by
      change i.skip.rest.dropWhile isWord = _
      rw [skipped, List.dropWhile_cons_of_pos (by simp [isWord, inked])]
    have rest : (others.dropWhile isWord).length ≤ others.length :=
      (List.dropWhile_sublist isWord).length_le
    rw [skipped, List.length_cons] at shorter
    rw [start, Input.left, read]
    split <;> omega

end Scanf
