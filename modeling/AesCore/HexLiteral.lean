/-!
# Sized literals

A literal of a hardware description language, in hexadecimal: the number of bits in
decimal, a quotation mark, the letter `h`, and digits. A program that has the bytes of
a value in their order, the most significant first, writes two digits for each.

Reading what was written gives the value back, whatever follows the literal. In a text
of lines, the literals behind a label are those of the lines that start with it.
-/

namespace HexLiteral

/-- A byte. -/
abbrev Byte := BitVec 8

/-- The quotation mark of a sized literal, which stands between the size and the base. -/
def quote : Char := Char.ofNat 39

/-- The conversion `%02x` of a byte: two digits, a leading zero included, with small
letters. -/
def hexByte (b : Byte) : List Char := [Nat.digitChar (b.toNat / 16), Nat.digitChar (b.toNat % 16)]

/-- A literal with the given bytes as its digits: the size in bits, the mark and the base,
and two digits for each byte. -/
def literal (bits : Nat) (bytes : List Byte) : List Char :=
  Nat.toDigits 10 bits ++ quote :: 'h' :: bytes.flatMap hexByte

/-- The value of a hexadecimal digit, in small or capital letters. Other characters have
none and end a literal. -/
def digitValue (c : Char) : Option Nat :=
  if 48 ≤ c.toNat ∧ c.toNat ≤ 57 then some (c.toNat - 48)
  else if 97 ≤ c.toNat ∧ c.toNat ≤ 102 then some (c.toNat - 87)
  else if 65 ≤ c.toNat ∧ c.toNat ≤ 70 then some (c.toNat - 55)
  else none

/-- The value of the digits at the front of a text, after others of the given value. Reading
stops at the first character that is no digit. -/
def digits (value : Nat) : List Char → Nat
  | [] => value
  | c :: rest =>
    match digitValue c with
    | some d => digits (16 * value + d) rest
    | none => value

/-- The literal at the front of a text, if there is one: a size in decimal digits, the mark,
the base, and digits. Its value is cut off at its size, as Verilog does. -/
def read (text : List Char) : Option (Sigma BitVec) :=
  match text.dropWhile Char.isDigit with
  | mark :: base :: rest =>
    if text.takeWhile Char.isDigit ≠ [] ∧ mark = quote ∧ base = 'h' then
      some ⟨Nat.ofDigitChars 10 (text.takeWhile Char.isDigit) 0, BitVec.ofNat _ (digits 0 rest)⟩
    else none
  | _ => none

/-- The literal on a line behind a label, if the line starts with the label. The label is
taken as it is, blanks included. -/
def field (label line : List Char) : Option (Sigma BitVec) :=
  if label.isPrefixOf line then read (line.drop label.length) else none

/-- The literals in a text behind a label, line by line and in their order. Lines that do
not start with the label, or go on without a literal, give nothing. -/
def fields (label text : List Char) : List (Sigma BitVec) :=
  (text.splitOn '\n').filterMap (field label)

/-- A text of the given lines, each with its end. The last line has one too, so a text that
is printed in pieces is the concatenation of them. -/
def unlines (lines : List (List Char)) : List Char := lines.flatMap (· ++ ['\n'])

/-- The number that bytes write, the most significant first. It is the value of their
digits, two at a time. -/
def number (bytes : List Byte) : Nat := bytes.foldl (fun value b => 256 * value + b.toNat) 0

/-- The bytes of a number, the most significant first, as a loop of shifts over the bytes
takes them. Only the lowest `k` bytes are given. -/
def bigEndian (k n : Nat) : List Byte :=
  (List.range k).map fun i => BitVec.ofNat 8 (n >>> (8 * (k - 1 - i)))

/-- Each digit is known: what is printed for a number below sixteen has that number as its
value. -/
theorem digit_value_digit_char {d : Nat} (small : d < 16) :
    digitValue (Nat.digitChar d) = some d := by
  have all : ∀ d, d < 16 → digitValue (Nat.digitChar d) = some d := by decide
  exact all d small

/-- The digits of bytes continue a value by these bytes, up to where other text follows. The
induction is over the bytes, two digits a step. -/
theorem digits_bytes (bytes : List Byte) (value : Nat) {rest : List Char}
    (stop : ∀ next ∈ rest.head?, digitValue next = none) :
    digits value (bytes.flatMap hexByte ++ rest) =
      bytes.foldl (fun value b => 256 * value + b.toNat) value := by
  induction bytes generalizing value with
  | nil =>
    rw [List.flatMap_nil, List.nil_append, List.foldl_nil]
    match rest with
    | [] => rfl
    | next :: rest => rw [digits, stop next rfl]
  | cons b bytes inductionHypothesis =>
    have high : b.toNat / 16 < 16 := by omega
    have low : b.toNat % 16 < 16 := Nat.mod_lt _ (by decide)
    have byte : 16 * (16 * value + b.toNat / 16) + b.toNat % 16 = 256 * value + b.toNat := by omega
    rw [List.flatMap_cons, hexByte, List.foldl_cons, ← byte, ← inductionHypothesis]
    simp only [List.cons_append, List.nil_append, digits, digit_value_digit_char high,
      digit_value_digit_char low]

/-- The size in a literal is written in decimal digits, so the mark is the first character
after it. -/
theorem is_digit_of_mem_size {bits : Nat} {c : Char} (member : c ∈ Nat.toDigits 10 bits) :
    c.isDigit = true :=
  Nat.isDigit_of_mem_toDigits (by decide) (by decide) member

/-- What was written is read: the size is found in front of the mark, and the value is that
of all digits up to the text that follows. -/
theorem read_literal (bits : Nat) (bytes : List Byte) {rest : List Char}
    (stop : ∀ next ∈ rest.head?, digitValue next = none) :
    read (literal bits bytes ++ rest) = some ⟨bits, BitVec.ofNat bits (number bytes)⟩ := by
  have nonempty : Nat.toDigits 10 bits ≠ [] := List.ne_nil_of_length_pos Nat.length_toDigits_pos
  have size : Nat.ofDigitChars 10 (Nat.toDigits 10 bits) 0 = bits :=
    Nat.ofDigitChars_toDigits (by decide) (by decide)
  have mark : quote.isDigit = false := by decide
  have layout : literal bits bytes ++ rest =
      Nat.toDigits 10 bits ++ quote :: 'h' :: (bytes.flatMap hexByte ++ rest) := by
    simp [literal]
  have taken : (literal bits bytes ++ rest).takeWhile Char.isDigit = Nat.toDigits 10 bits := by
    rw [layout, List.takeWhile_append_of_pos fun _ => is_digit_of_mem_size,
      List.takeWhile_cons_of_neg (by simp [mark]), List.append_nil]
  have dropped : (literal bits bytes ++ rest).dropWhile Char.isDigit =
      quote :: 'h' :: (bytes.flatMap hexByte ++ rest) := by
    rw [layout, List.dropWhile_append_of_pos fun _ => is_digit_of_mem_size,
      List.dropWhile_cons_of_neg (by simp [mark])]
  have sized {n : Nat} (same : n = bits) (value : Nat) :
      some (Sigma.mk n (BitVec.ofNat n value)) = some ⟨bits, BitVec.ofNat bits value⟩ := by
    rw [same]
  rw [read, dropped, taken]
  simp only [ne_eq, nonempty, not_false_eq_true, and_self, ↓reduceIte, number,
    digits_bytes bytes 0 stop]
  exact sized size _

/-- A literal does not end its line, because none of its characters is an end of a line. -/
theorem newline_not_mem_literal (bits : Nat) (bytes : List Byte) : '\n' ∉ literal bits bytes := by
  have digit : ∀ d, d < 16 → Nat.digitChar d ≠ '\n' := by decide
  intro member
  rw [literal, List.mem_append, List.mem_cons, List.mem_cons, List.mem_flatMap] at member
  obtain size | mark | base | ⟨b, _, inside⟩ := member
  · exact absurd (is_digit_of_mem_size size) (by decide)
  · exact absurd mark (by decide)
  · exact absurd base (by decide)
  · rw [hexByte, List.mem_cons, List.mem_singleton] at inside
    cases inside with
    | inl high => exact digit (b.toNat / 16) (by omega) high.symm
    | inr low => exact digit (b.toNat % 16) (Nat.mod_lt _ (by decide)) low.symm

/-- The literal behind a label is found, with its size and its value, when it is the rest of
its line. -/
theorem field_literal (label : List Char) (bits : Nat) (bytes : List Byte) :
    field label (label ++ literal bits bytes) = some ⟨bits, BitVec.ofNat bits (number bytes)⟩ := by
  have labelled : label.isPrefixOf (label ++ literal bits bytes) = true :=
    List.isPrefixOf_iff_prefix.mpr (List.prefix_append label _)
  have found : read (literal bits bytes ++ []) = some ⟨bits, BitVec.ofNat bits (number bytes)⟩ :=
    read_literal bits bytes (by simp)
  rw [List.append_nil] at found
  rw [field, if_pos labelled, List.drop_left, found]

/-- The literals behind a label in a text of lines are those of the lines, because the lines
are found again where the text is split. -/
theorem fields_unlines (label : List Char) {lines : List (List Char)}
    (whole : ∀ line ∈ lines, '\n' ∉ line) :
    fields label (unlines lines) = lines.filterMap (field label) ++ fields label [] := by
  induction lines with
  | nil => rfl
  | cons line lines inductionHypothesis =>
    have first : line.splitOn '\n' = [line] :=
      List.splitOn_eq_singleton (whole line List.mem_cons_self)
    have others := inductionHypothesis fun other member => whole other (List.mem_cons_of_mem _ member)
    have text : unlines (line :: lines) = line ++ '\n' :: unlines lines := by simp [unlines]
    rw [fields] at others
    rw [fields, text, List.splitOn_append_cons_self, first, List.filterMap_append, others,
      ← List.append_assoc, ← List.filterMap_append, List.singleton_append]

/-- The bytes of a number write it, if they are enough to hold it. The highest of them comes
first, so each step of the sum shifts what was there by one byte. -/
theorem number_big_endian {k n : Nat} (enough : n >>> (8 * k) = 0) : number (bigEndian k n) = n := by
  induction k generalizing n with
  | zero => exact enough.symm
  | succ k inductionHypothesis =>
    have upper : (n >>> 8) >>> (8 * k) = 0 := by
      rw [← Nat.shiftRight_add, ← enough]
      congr 1
      omega
    have front : ((List.range k).map fun i => BitVec.ofNat 8 (n >>> (8 * (k + 1 - 1 - i)))) =
        bigEndian k (n >>> 8) := by
      apply List.map_congr_left
      intro i member
      have inside : i < k := List.mem_range.mp member
      have position : 8 * (k + 1 - 1 - i) = 8 + 8 * (k - 1 - i) := by omega
      rw [position, Nat.shiftRight_add]
    have last : 8 * (k + 1 - 1 - k) = 0 := by omega
    have split : bigEndian (k + 1) n = bigEndian k (n >>> 8) ++ [BitVec.ofNat 8 n] := by
      rw [bigEndian, List.range_succ, List.map_append, List.map_singleton, front, last,
        Nat.shiftRight_zero]
    have byte : n >>> 8 = n / 256 := Nat.shiftRight_eq_div_pow n 8
    have whole := inductionHypothesis upper
    rw [number] at whole
    rw [number, split, List.foldl_append, whole, List.foldl_cons, List.foldl_nil, byte,
      BitVec.toNat_ofNat]
    omega

end HexLiteral
