import AesCore.BlockBytes
import AesCore.GoldenCipher
import AesCore.HexLiteral
import AesCore.StateRegisters

/-!
# The generator of test vectors

The program `gen_test_case.c`: words are drawn byte by byte, the first byte highest,
and printed byte by byte as they lie in memory, the lowest byte first. Between the key
and the ciphertext stands what the cipher itself prints. The order of the bytes in a
word does not matter: the printed literals are the blocks that the cipher works on, so
every vector is right, whatever is drawn.
-/

namespace AesCore.Generator

open ByteField (Byte)
open Fips197 GoldenCipher WordArray
open HexLiteral (hexByte literal quote field fields unlines)

/-- Function `rand_word`, where the next call of `rand` is number `k`. Four draws are
shifted in, so the first one ends up in the highest byte. -/
def randWord (rand : Nat → Nat) (k : Nat) : Word :=
  (List.range 4).foldl (fun w i => (w <<< 8) ||| (BitVec.ofNat 32 (rand (k + i)) &&& 255#32)) 0#32

/-- Function `rand_word_array`. The words are drawn one after the other, four calls of
`rand` each, and only whole words are filled. -/
def randWordArray (rand : Nat → Nat) (k bitNum : Nat) : List Word :=
  (List.range (bitNum / 32)).map fun i => randWord rand (k + 4 * i)

/-- Byte `i` of an array in memory, on a little-endian machine. Outside the array it is
zero, but the printing functions do not go there. -/
def memory (w : List Word) (i : Nat) : Byte := byteAt (w.getD (i / 4) 0#32) (Fin.ofNat 4 i)

/-- Functions `print_verilog_hex` and `print_verilog_hex_2`: the number of bits, a quote,
the letter for hexadecimal, then two digits for each byte in the order of memory. The two
differ in their names only. -/
def printVerilogHex (w : List Word) (bitNum : Nat) : List Char :=
  Nat.toDigits 10 bitNum ++ quote :: 'h' ::
    (List.range (bitNum / 8)).flatMap fun i => hexByte (memory w i)

/-- An array of four words, from the list that `rand_word_array` filled. A shorter list
would be padded with zeros; none occurs. -/
def arrayOf (w : List Word) : WordArray :=
  four (w.getD 0 0#32) (w.getD 1 0#32) (w.getD 2 0#32) (w.getD 3 0#32)

/-- The words of an array, for the functions that print lists of words. -/
def wordsOf (a : WordArray) : List Word := [a.get 0, a.get 1, a.get 2, a.get 3]

/-- Function `encrypt_128_key_expand_inline_no_branch` of the generator: what it prints, and
the state it leaves. It prints state and key before the rounds and the state once more after
them. The last word `key` has no literal behind it. -/
def encryptPrinting (state key : List Word) : List Char × List Word :=
  let final := wordsOf (encrypt128KeyExpandInlineNoBranch (arrayOf state) (arrayOf key))
  ("inside aes.c \n".toList ++ "state\n".toList ++ printVerilogHex state 128 ++ "\nkey\n".toList ++
      printVerilogHex key 128 ++ "\n".toList ++ "$$$$$$$final cipher text\n".toList ++
      printVerilogHex final 128 ++ "\nkey\n".toList, final)

/-- One round of the loop of `main`. The plaintext takes the first sixteen draws and the key
the next. What the cipher prints stands between the key and the ciphertext. -/
def testCase (rand : Nat → Nat) (k : Nat) : List Char :=
  let state := randWordArray rand k 128
  let key := randWordArray rand (k + 16) 128
  let encrypted := encryptPrinting state key
  "plaintext: ".toList ++ printVerilogHex state 128 ++ "\n".toList ++
    "key:       ".toList ++ printVerilogHex key 128 ++ "\n".toList ++ encrypted.1 ++
    "ciphertext:".toList ++ printVerilogHex encrypted.2 128 ++ "\n\n".toList

/-- The header of the cases. An empty line follows it. -/
def header (bitNum : Nat) : List Char :=
  "AES-".toList ++ Nat.toDigits 10 bitNum ++ " test cases:\n\n".toList

/-- Function `main` with the given number of cases, each of which draws 32 times. The number
is a parameter here so that the result does not depend on it. -/
def cases (rand : Nat → Nat) (numCase : Nat) : List Char :=
  header 128 ++ (List.range numCase).flatMap fun i => testCase rand (32 * i)

/-- Function `main`, where the number of cases is one. -/
def main (rand : Nat → Nat) : List Char := cases rand 1

/-- The block that sixteen draws give: the bytes of each word in the opposite order, because
the first draw is the highest byte of a word and the lowest is printed first. Of a draw only
the lowest byte counts. -/
def drawn (rand : Nat → Nat) (k : Nat) : Block :=
  blockOf ((List.range 16).map fun i => BitVec.ofNat 8 (rand (k + 4 * (i / 4) + (3 - i % 4))))

/-- A block as a literal of 128 bits, the first byte leftmost. -/
def blockLiteral (b : Block) : List Char := literal 128 (blockBytes b)

/-- The lines of a vector, with the block that stands on each. The ciphertext occurs twice:
once from inside the cipher, and once behind the label that a reader looks for. -/
def vectorLines (plain key : Block) : List (List Char) :=
  ["plaintext: ".toList ++ blockLiteral plain, "key:       ".toList ++ blockLiteral key,
    "inside aes.c ".toList, "state".toList, blockLiteral plain, "key".toList, blockLiteral key,
    "$$$$$$$final cipher text".toList, blockLiteral (cipher key plain), "key".toList,
    "ciphertext:".toList ++ blockLiteral (cipher key plain), []]

/-- The lines of the output: the header, an empty line, and the vectors one after the other,
each from its own 32 draws. -/
def outputLines (rand : Nat → Nat) (numCase : Nat) : List (List Char) :=
  ["AES-128 test cases:".toList, []] ++ (List.range numCase).flatMap fun i =>
    vectorLines (drawn rand (32 * i)) (drawn rand (32 * i + 16))

/-- The word after a byte has come in from below. `rand_word` does this four times. -/
def shiftIn (w : Word) (b : Byte) : Word := (w <<< 8) ||| b.setWidth 32

/-- The words of an array by position. The four positions are written out in the definition,
so they are checked one by one. -/
theorem get_array_of (w : List Word) (c : Fin 4) : (arrayOf w).get c = w.getD c 0#32 := by
  match c with
  | 0 | 1 | 2 | 3 => rfl

/-- The words of an array make the array, so nothing is lost when the cipher hands its state
to the printing function. -/
theorem array_of_words_of (a : WordArray) : arrayOf (wordsOf a) = a := by
  apply Vector.ext
  intro i inside
  exact (get_array_of (wordsOf a) ⟨i, inside⟩).trans (by
    match i with
    | 0 | 1 | 2 | 3 => rfl)

/-- What is printed of an array is its block. Printing in the order of memory and viewing as
a state agree on where byte `i` is, so the order of bytes in a word cancels. -/
theorem print_eq (w : List Word) :
    printVerilogHex w 128 = blockLiteral (ofState (view (arrayOf w))) := by
  have bytes : ((List.range 16).map fun i => memory w i) =
      blockBytes (ofState (view (arrayOf w))) := by
    rw [blockBytes, to_state_of_state, bytesOf]
    apply List.map_congr_left
    intro i member
    have inside : i < 16 := List.mem_range.mp member
    have column : i / 4 % 4 = i / 4 := Nat.mod_eq_of_lt (by omega)
    rw [memory, view, get_array_of, Fin.val_ofNat, column]
  rw [blockLiteral, literal, ← bytes, List.flatMap_map]
  rfl

/-- The encryption of two arrays is the cipher of their blocks: the theorem about the golden
model, read for the blocks that are printed. -/
theorem encrypt_array (state key : WordArray) :
    ofState (view (encrypt128KeyExpandInlineNoBranch state key)) =
      cipher (ofState (view key)) (ofState (view state)) := by
  have words : keyView key = blockWord (ofState (view key)) := by
    rw [← block_reversed rfl, ← key_view_reversed_block, reversed_reversed]
  exact view_encrypt words (to_state_of_state _).symm

/-- The lowest byte of a draw. The mask of the source and the truncation to eight bits
agree, whatever `rand` returns. -/
theorem masked_eq (n : Nat) : BitVec.ofNat 32 n &&& 255#32 = (BitVec.ofNat 8 n).setWidth 32 := by
  apply BitVec.eq_of_toNat_eq
  have mask : 255 % 2 ^ 32 = 2 ^ 8 - 1 := by decide
  rw [BitVec.toNat_and, BitVec.toNat_setWidth, BitVec.toNat_ofNat, BitVec.toNat_ofNat,
    BitVec.toNat_ofNat, mask, Nat.and_two_pow_sub_one_eq_mod]
  omega

/-- The byte that came in last is the lowest. -/
theorem byte_at_shift_in_last (w : Word) (b : Byte) : byteAt (shiftIn w b) 0 = b := by
  apply BitVec.eq_of_getLsbD_eq
  intro i inside
  have within : i < 32 := by omega
  simp [byteAt, shiftIn, inside, within]

/-- The other bytes move up by one place, and the highest one is lost. -/
theorem byte_at_shift_in (w : Word) (b : Byte) {r : Nat} (above : r + 1 < 4) :
    byteAt (shiftIn w b) ⟨r + 1, above⟩ = byteAt w ⟨r, by omega⟩ := by
  apply BitVec.eq_of_getLsbD_eq
  intro i inside
  have within : 8 * (r + 1) + i < 32 := by omega
  have beyond : ¬ 8 * (r + 1) + i < 8 := by omega
  have position : 8 * (r + 1) + i - 8 = 8 * r + i := by omega
  have clear : b.getLsbD (8 * (r + 1) + i) = false := BitVec.getLsbD_of_ge b _ (by omega)
  have same : w[8 * r + i] = w.getLsbD (8 * r + i) := (BitVec.getLsbD_eq_getElem _).symm
  simp [byteAt, shiftIn, inside, within, beyond, position, clear, same]

/-- The bytes of a drawn word, from the last draw to the first. Proof: four bytes shifted
in, each of which has moved up once for every later one. -/
theorem byte_at_rand_word (rand : Nat → Nat) (k : Nat) (r : Fin 4) :
    byteAt (randWord rand k) r = BitVec.ofNat 8 (rand (k + (3 - r.val))) := by
  have step (i : Nat) (w : Word) : (w <<< 8) ||| (BitVec.ofNat 32 (rand (k + i)) &&& 255#32) =
      shiftIn w (BitVec.ofNat 8 (rand (k + i))) := by
    rw [masked_eq]
    rfl
  have unrolled : randWord rand k = shiftIn (shiftIn (shiftIn (shiftIn 0#32
      (BitVec.ofNat 8 (rand (k + 0)))) (BitVec.ofNat 8 (rand (k + 1))))
        (BitVec.ofNat 8 (rand (k + 2)))) (BitVec.ofNat 8 (rand (k + 3))) := by
    have indices : List.range 4 = [0, 1, 2, 3] := rfl
    rw [randWord, indices]
    simp only [List.foldl_cons, List.foldl_nil, step]
  rw [unrolled]
  match r with
  | 0 => exact byte_at_shift_in_last _ _
  | 1 =>
    calc
      _ = _ := byte_at_shift_in _ _ (by decide)
      _ = _ := byte_at_shift_in_last _ _
  | 2 =>
    calc
      _ = _ := byte_at_shift_in _ _ (by decide)
      _ = _ := byte_at_shift_in _ _ (by decide)
      _ = _ := byte_at_shift_in_last _ _
  | 3 =>
    calc
      _ = _ := byte_at_shift_in _ _ (by decide)
      _ = _ := byte_at_shift_in _ _ (by decide)
      _ = _ := byte_at_shift_in _ _ (by decide)
      _ = _ := byte_at_shift_in_last _ _

/-- What is drawn is a block of the drawn bytes. The bytes of the block are those of the
four words, and each word has its draws in the opposite order. -/
theorem view_rand_word_array (rand : Nat → Nat) (k : Nat) :
    ofState (view (arrayOf (randWordArray rand k 128))) = drawn rand k := by
  rw [drawn, blockOf]
  congr 1
  funext r c
  have word : (randWordArray rand k 128).getD c 0#32 = randWord rand (k + 4 * c.val) := by
    have position : (List.range (128 / 32))[c.val]? = some c.val := List.getElem?_range c.isLt
    rw [randWordArray, List.getD_eq_getElem?_getD, List.getElem?_map, position]
    rfl
  have inside : r.val + 4 * c.val < 16 := by omega
  have column : (r.val + 4 * c.val) / 4 = c.val := by omega
  have row : (r.val + 4 * c.val) % 4 = r.val := by omega
  have found : (List.range 16)[r.val + 4 * c.val]? = some (r.val + 4 * c.val) :=
    List.getElem?_range inside
  rw [view, get_array_of, word, byte_at_rand_word, stateOf, List.getD_eq_getElem?_getD,
    List.getElem?_map, found, Option.map_some, Option.getD_some, column, row]

/-- The bytes of a block are those of its number, so the literal of a block is read back as
the block. -/
theorem number_block_bytes (b : Block) : HexLiteral.number (blockBytes b) = b.toNat := by
  have bytes : blockBytes b = HexLiteral.bigEndian 16 b.toNat := by
    rw [blockBytes, bytesOf, HexLiteral.bigEndian]
    apply List.map_congr_left
    intro i member
    have inside : i < 16 := List.mem_range.mp member
    have position : 96 - 32 * (Fin.ofNat 4 (i / 4)).val + (24 - 8 * (Fin.ofNat 4 i).val) =
        8 * (16 - 1 - i) := by
      rw [Fin.val_ofNat, Fin.val_ofNat]
      omega
    have byte : toState b (Fin.ofNat 4 i) (Fin.ofNat 4 (i / 4)) =
        b.extractLsb' (8 * (16 - 1 - i)) 8 := by
      rw [← position]
      exact congrFun (congrFun (StateRegisters.to_state_apply b) _) _
    rw [byte]
    rfl
  have enough : b.toNat >>> (8 * 16) = 0 := by
    rw [Nat.shiftRight_eq_div_pow]
    exact Nat.div_eq_of_lt b.isLt
  rw [bytes, HexLiteral.number_big_endian enough]

/-- The block behind a label is found, when the line starts with this label. This is the
round trip of literals, used at 128 bits. -/
theorem field_block (label : List Char) (b : Block) :
    field label (label ++ blockLiteral b) = some ⟨128, b⟩ := by
  rw [blockLiteral, HexLiteral.field_literal, number_block_bytes, BitVec.ofNat_toNat,
    BitVec.setWidth_eq]

/-- A case is printed line by line. The calls of the source print across the ends of lines;
joined they are the lines of a vector. -/
theorem test_case_eq (rand : Nat → Nat) (k : Nat) :
    testCase rand k = unlines (vectorLines (drawn rand k) (drawn rand (k + 16))) := by
  have drawing (k : Nat) : printVerilogHex (randWordArray rand k 128) 128 =
      blockLiteral (drawn rand k) := by
    rw [print_eq, view_rand_word_array]
  have final : printVerilogHex (wordsOf (encrypt128KeyExpandInlineNoBranch
      (arrayOf (randWordArray rand k 128)) (arrayOf (randWordArray rand (k + 16) 128)))) 128 =
        blockLiteral (cipher (drawn rand (k + 16)) (drawn rand k)) := by
    rw [print_eq, array_of_words_of, encrypt_array, view_rand_word_array, view_rand_word_array]
  unfold testCase encryptPrinting vectorLines unlines
  simp [drawing, final]

/-- No line of a vector is broken: labels and digits have no newline, so splitting the
output at newlines gives the lines back. -/
theorem newline_not_mem_vector {plain key : Block} {line : List Char}
    (member : line ∈ vectorLines plain key) : '\n' ∉ line := by
  have inside (b : Block) : '\n' ∉ blockLiteral b := HexLiteral.newline_not_mem_literal 128 _
  unfold vectorLines at member
  simp only [List.mem_cons, List.not_mem_nil, or_false] at member
  obtain rfl | rfl | rfl | rfl | rfl | rfl | rfl | rfl | rfl | rfl | rfl | rfl := member <;>
    simp [inside]

/-- The output is printed line by line, whatever the number of cases. -/
theorem cases_eq (rand : Nat → Nat) (numCase : Nat) :
    cases rand numCase = unlines (outputLines rand numCase) := by
  have first : header 128 = unlines ["AES-128 test cases:".toList, []] := by
    unfold header unlines
    simp
    rfl
  have others : (fun i => testCase rand (32 * i)) = fun i =>
      unlines (vectorLines (drawn rand (32 * i)) (drawn rand (32 * i + 16))) :=
    funext fun i => test_case_eq rand (32 * i)
  rw [cases, first, others, outputLines]
  unfold unlines
  rw [List.flatMap_append, List.flatMap_assoc]

/-- A label that starts one line only has the literal on this line behind it. The other
lines may stand before and after; none of them starts with the label. -/
theorem filter_map_field {label : List Char} (before : List (List Char))
    {lines after : List (List Char)} (b : Block)
    (split : lines = before ++ (label ++ blockLiteral b) :: after)
    (others : (before ++ after).all (fun line => !label.isPrefixOf line) = true) :
    lines.filterMap (field label) = [⟨128, b⟩] := by
  have miss {part : List (List Char)} (inside : part ⊆ before ++ after) :
      part.filterMap (field label) = [] := by
    rw [List.filterMap_eq_nil_iff]
    intro line member
    have other := List.all_eq_true.mp others line (inside member)
    rw [Bool.not_eq_true'] at other
    rw [field, other]
    rfl
  rw [split, List.filterMap_append, List.filterMap_cons_some (field_block label b),
    miss (List.subset_append_left before after), miss (List.subset_append_right before after),
    List.nil_append]

/-- The plaintext of a vector is on the first of its lines and behind this label nowhere
else. -/
theorem plaintext_field (plain key : Block) :
    (vectorLines plain key).filterMap (field "plaintext: ".toList) = [⟨128, plain⟩] := by
  unfold vectorLines
  exact filter_map_field [] plain rfl rfl

/-- The key of a vector. The lines `key` that the cipher prints are no match, since the
label goes on with a colon. -/
theorem key_field (plain key : Block) :
    (vectorLines plain key).filterMap (field "key:       ".toList) = [⟨128, key⟩] := by
  unfold vectorLines
  exact filter_map_field ["plaintext: ".toList ++ blockLiteral plain] key rfl rfl

/-- The ciphertext of a vector. The line that the cipher prints itself has another label, so
that the block is found once. -/
theorem ciphertext_field (plain key : Block) :
    (vectorLines plain key).filterMap (field "ciphertext:".toList) = [⟨128, cipher key plain⟩] := by
  unfold vectorLines
  exact filter_map_field ((vectorLines plain key).take 10) (cipher key plain) rfl rfl

/-- The literals behind a label in the output, from those in each vector: the header
contributes none, and the lines of the vectors are searched one vector after the other. -/
theorem fields_cases {label : List Char} {value : Block → Block → Block}
    (title : (["AES-128 test cases:".toList, []] : List (List Char)).filterMap (field label) = [])
    (ends : fields label [] = [])
    (single : ∀ plain key, (vectorLines plain key).filterMap (field label) =
      [⟨128, value plain key⟩]) (rand : Nat → Nat) (numCase : Nat) :
    fields label (cases rand numCase) = (List.range numCase).map fun i =>
      ⟨128, value (drawn rand (32 * i)) (drawn rand (32 * i + 16))⟩ := by
  have whole : ∀ line ∈ outputLines rand numCase, '\n' ∉ line := by
    intro line member
    rw [outputLines, List.mem_append, List.mem_flatMap] at member
    obtain first | ⟨i, _, inside⟩ := member
    · simp only [List.mem_cons, List.not_mem_nil, or_false] at first
      obtain rfl | rfl := first <;> simp
    · exact newline_not_mem_vector inside
  rw [cases_eq, HexLiteral.fields_unlines label whole, ends, List.append_nil, outputLines,
    List.filterMap_append, title, List.nil_append, List.filterMap_flatMap]
  simp only [single]
  exact List.map_eq_flatMap.symm

/-- Whatever is drawn, a reader of the output finds the drawn blocks behind the labels of
plaintext and key, and their ciphertext behind the third, however many vectors there are.
Proof: the output is split into its lines, and each label is looked up in one vector at a
time. -/
theorem printed_vectors (rand : Nat → Nat) (numCase : Nat) :
    fields "plaintext: ".toList (cases rand numCase) =
        ((List.range numCase).map fun i => ⟨128, drawn rand (32 * i)⟩) ∧
      fields "key:       ".toList (cases rand numCase) =
        ((List.range numCase).map fun i => ⟨128, drawn rand (32 * i + 16)⟩) ∧
      fields "ciphertext:".toList (cases rand numCase) = (List.range numCase).map fun i =>
        ⟨128, cipher (drawn rand (32 * i + 16)) (drawn rand (32 * i))⟩ := by
  have plain := fields_cases rfl rfl plaintext_field rand numCase
  have key := fields_cases rfl rfl key_field rand numCase
  have final := fields_cases rfl rfl ciphertext_field rand numCase
  exact ⟨plain, key, final⟩
end AesCore.Generator
