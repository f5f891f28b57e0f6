/-!
# Base64

Three bytes become four characters of an alphabet of sixty-four. A last group of one
or two bytes is filled with zeros, and padding characters stand for the characters it
does not need. The decoder reads one character at a time. It skips what is neither in
the alphabet nor padding, skips padding that cannot end the text, stops at padding that
does, and refuses a text that ends inside a group.

Decoding an encoded text gives the text back.
-/

namespace Base64

/-- A byte. -/
abbrev Byte := BitVec 8

/-- What one character stands for. -/
abbrev Sextet := BitVec 6

/-- The character of a sextet: the capital letters, the small letters, the digits, and the
two signs that the standard alphabet adds. -/
def character (s : Sextet) : Byte :=
  if s.toNat < 26 then BitVec.ofNat 8 (s.toNat + 65)
  else if s.toNat < 52 then BitVec.ofNat 8 (s.toNat + 71)
  else if s.toNat < 62 then BitVec.ofNat 8 (s.toNat - 4)
  else if s.toNat = 62 then 43#8
  else 47#8

/-- The sextet of a character of the alphabet. Other characters have none, the padding
included, and a decoder passes over those that are not padding. -/
def value (c : Byte) : Option Sextet :=
  if 65 ≤ c.toNat ∧ c.toNat ≤ 90 then some (BitVec.ofNat 6 (c.toNat - 65))
  else if 97 ≤ c.toNat ∧ c.toNat ≤ 122 then some (BitVec.ofNat 6 (c.toNat - 71))
  else if 48 ≤ c.toNat ∧ c.toNat ≤ 57 then some (BitVec.ofNat 6 (c.toNat + 4))
  else if c = 43#8 then some 62#6
  else if c = 47#8 then some 63#6
  else none

/-- The padding character, an equals sign. It fills the last group of a text whose length is
no multiple of three. -/
def pad : Byte := 61#8

/-- The first sextet of a group, the upper six bits of its first byte. -/
def first (a : Byte) : Sextet := a.extractLsb' 2 6

/-- The second sextet of a group, across the border between its first two bytes. Where the
second byte is missing it is read as zero. -/
def second (a b : Byte) : Sextet := a.extractLsb' 0 2 ++ b.extractLsb' 4 4

/-- The third sextet of a group, across the border between its last two bytes. -/
def third (b c : Byte) : Sextet := b.extractLsb' 0 4 ++ c.extractLsb' 6 2

/-- The fourth sextet of a group, the lower six bits of its third byte. -/
def fourth (c : Byte) : Sextet := c.extractLsb' 0 6

/-- The characters of a text, four for each group of three bytes. One or two bytes at the
end are filled up with padding. -/
def encode : List Byte → List Byte
  | [] => []
  | [a] => [character (first a), character (second a 0#8), pad, pad]
  | [a, b] => [character (first a), character (second a b), character (third b 0#8), pad]
  | a :: b :: c :: rest =>
    character (first a) :: character (second a b) :: character (third b c) ::
      character (fourth c) :: encode rest

/-- The whole bytes of a group of sextets. Two sextets make one byte and three make two; the
bits that are left over are dropped. -/
def bytes : List Sextet → List Byte
  | [s, t] => [s ++ t.extractLsb' 4 2]
  | [s, t, u] => [s ++ t.extractLsb' 4 2, t.extractLsb' 0 4 ++ u.extractLsb' 2 4]
  | [s, t, u, v] =>
    [s ++ t.extractLsb' 4 2, t.extractLsb' 0 4 ++ u.extractLsb' 2 4, u.extractLsb' 0 2 ++ v]
  | _ => []

/-- The next character that counts is padding. A decoder that has two sextets of a group
accepts a padding character only if another one follows. -/
def padded (text : List Byte) : Bool :=
  text.find? (fun c => c == pad || (value c).isSome) == some pad

/-- The bytes of a text after the sextets of an unfinished group. Characters outside the
alphabet are skipped, padding ends the text where it is in place and is skipped elsewhere,
and an end inside a group is an error. -/
def scan (group : List Sextet) : List Byte → Option (List Byte)
  | [] => if group = [] then some [] else none
  | c :: rest =>
    if c = pad then
      if group.length < 2 ∨ group.length = 2 ∧ padded rest = false then scan group rest
      else some (bytes group)
    else
      match value c with
      | none => scan group rest
      | some s =>
        if group.length = 3 then (scan [] rest).map (bytes (group ++ [s]) ++ ·)
        else scan (group ++ [s]) rest

/-- The bytes of a text, as a lenient decoder finds them, or nothing where the last group is
incomplete. -/
def decode (text : List Byte) : Option (List Byte) := scan [] text

/-- A character of the alphabet is known. There are sixty-four sextets, and each is
checked. -/
theorem value_character : ∀ s : Sextet, value (character s) = some s := by
  decide +kernel

/-- A character of the alphabet is not padding, so what was encoded does not end early. -/
theorem character_ne_pad : ∀ s : Sextet, character s ≠ pad := by
  decide +kernel

/-- The first byte of a group is found in its first two sextets. -/
theorem first_byte (a b : Byte) : first a ++ (second a b).extractLsb' 4 2 = a := by
  apply BitVec.eq_of_getLsbD_eq
  intro i inside
  simp only [first, second, BitVec.getLsbD_append, BitVec.getLsbD_extractLsb']
  grind

/-- The second byte of a group is found in its second and third sextets. -/
theorem second_byte (a b c : Byte) :
    (second a b).extractLsb' 0 4 ++ (third b c).extractLsb' 2 4 = b := by
  apply BitVec.eq_of_getLsbD_eq
  intro i inside
  simp only [third, second, BitVec.getLsbD_append, BitVec.getLsbD_extractLsb']
  grind

/-- The third byte of a group is found in its last two sextets. With the two lemmas before,
no bit of a group is lost. -/
theorem third_byte (b c : Byte) : (third b c).extractLsb' 0 2 ++ fourth c = c := by
  apply BitVec.eq_of_getLsbD_eq
  intro i inside
  simp only [third, fourth, BitVec.getLsbD_append, BitVec.getLsbD_extractLsb']
  grind

/-- A character joins an unfinished group, to which its sextet is appended. -/
theorem scan_character {group : List Sextet} (s : Sextet) (rest : List Byte)
    (unfinished : group.length ≠ 3) :
    scan group (character s :: rest) = scan (group ++ [s]) rest := by
  rw [scan, if_neg (character_ne_pad s), value_character]
  exact if_neg unfinished

/-- The fourth character finishes a group: its bytes are put out and the next group is
empty. -/
theorem scan_fourth (s t u v : Sextet) (rest : List Byte) :
    scan [s, t, u] (character v :: rest) = (scan [] rest).map (bytes [s, t, u, v] ++ ·) := by
  rw [scan, if_neg (character_ne_pad v), value_character]
  rfl

/-- The characters of three bytes give the bytes, in front of what the rest of the text
gives. -/
theorem scan_group (a b c : Byte) (rest : List Byte) :
    scan [] (character (first a) :: character (second a b) :: character (third b c) ::
      character (fourth c) :: rest) = (scan [] rest).map ([a, b, c] ++ ·) := by
  have group : bytes [first a, second a b, third b c, fourth c] = [a, b, c] := by
    rw [bytes, first_byte, second_byte, third_byte]
  rw [scan_character _ _ (by decide), scan_character _ _ (by simp),
    scan_character _ _ (by simp)]
  exact (scan_fourth _ _ _ _ rest).trans (by rw [group])

/-- Decoding undoes encoding. The induction takes three bytes at a time, and the ends of one
and of two bytes are checked on their own, since they are padded. -/
theorem decode_encode (text : List Byte) : decode (encode text) = some text := by
  rw [decode]
  fun_induction encode text with
  | case1 => rfl
  | case2 a =>
    rw [scan_character _ _ (by decide), scan_character _ _ (by simp)]
    exact congrArg (fun byte => some [byte]) (first_byte a 0#8)
  | case3 a b =>
    rw [scan_character _ _ (by decide), scan_character _ _ (by simp),
      scan_character _ _ (by simp)]
    have group : bytes [first a, second a b, third b 0#8] = [a, b] := by
      rw [bytes, first_byte, second_byte]
    exact congrArg some group
  | case4 a b c rest inductionHypothesis =>
    rw [scan_group, inductionHypothesis]
    rfl

end Base64
