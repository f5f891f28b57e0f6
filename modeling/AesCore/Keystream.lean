import Mathlib.Data.List.GetD

/-!
# Texts in blocks under a keystream

A text is cut into blocks of one size, the last of which may be shorter, and treated
block by block. Where each entry depends on its own position alone, the blocks joined
are one pass over all positions. Adding a keystream is such a pass. Adding a second
keystream restores a text exactly when the two agree at every position of the text.
-/

namespace Keystream

variable {α : Type} {w : Nat}

/-- The number of blocks that hold a text. A rest that does not fill a block counts as one,
and the empty text has none. -/
def blockCount (size total : Nat) : Nat := (total + size - 1) / size

/-- The entries of block `b` of a text: a full block, the rest in the last one, and none in
the blocks after it. -/
def blockEntries (size total b : Nat) : Nat := min size (total - b * size)

/-- A text in blocks, given by its entries. This is the shape of a program that works
through a text block by block and joins what it gets. -/
def inBlocks (size total : Nat) (entry : Nat → Nat → α) : List α :=
  ((List.range (blockCount size total)).map fun b =>
    (List.range (blockEntries size total b)).map (entry b)).flatten

/-- One more block adds the positions that follow the earlier blocks. The induction is over
the number of blocks; the text ends where its length says, not where a block does. -/
theorem joined_blocks {size : Nat} (positive : 0 < size) (total : Nat) (entry : Nat → Nat → α)
    (n : Nat) :
    ((List.range n).map fun b => (List.range (blockEntries size total b)).map (entry b)).flatten =
      (List.range (min total (n * size))).map fun i => entry (i / size) (i % size) := by
  induction n with
  | zero => simp
  | succ n inductionHypothesis =>
    rw [List.range_succ, List.map_append, List.flatten_append, inductionHypothesis,
      List.map_singleton, List.flatten_singleton, Nat.succ_mul]
    by_cases before : n * size < total
    · have whole : min total (n * size) = n * size := Nat.min_eq_right (by omega)
      have next : min total (n * size + size) = n * size + blockEntries size total n := by
        rw [blockEntries]
        omega
      rw [whole, next, List.range_add, List.map_append, List.map_map]
      congr 1
      apply List.map_congr_left
      intro i member
      have inside : i < size :=
        Nat.lt_of_lt_of_le (List.mem_range.mp member) (Nat.min_le_left _ _)
      have quotient : (n * size + i) / size = n := by
        rw [Nat.mul_comm, Nat.mul_add_div positive, Nat.div_eq_of_lt inside, Nat.add_zero]
      have remainder : (n * size + i) % size = i := by
        rw [Nat.mul_comm, Nat.mul_add_mod, Nat.mod_eq_of_lt inside]
      rw [Function.comp_apply, quotient, remainder]
    · have none : blockEntries size total n = 0 := by
        rw [blockEntries]
        omega
      have same : min total (n * size) = min total (n * size + size) := by omega
      rw [none, same]
      exact List.append_nil _

/-- The blocks of a text are one pass over its positions, where position `i` is entry
`i % size` of block `i / size`. -/
theorem in_blocks_eq {size : Nat} (positive : 0 < size) (total : Nat) (entry : Nat → Nat → α) :
    inBlocks size total entry =
      (List.range total).map fun i => entry (i / size) (i % size) := by
  have enough : total ≤ blockCount size total * size := by
    have split := Nat.div_add_mod (total + size - 1) size
    have short := Nat.mod_lt (total + size - 1) positive
    rw [Nat.mul_comm size] at split
    rw [blockCount]
    omega
  rw [inBlocks, joined_blocks positive, Nat.min_eq_left enough]

/-- A text with a keystream added: entry `i` of the text with entry `i` of the stream. The
stream is a function and has no end. -/
def add (stream : Nat → BitVec w) (text : List (BitVec w)) : List (BitVec w) :=
  (List.range text.length).map fun i => stream i ^^^ text.getD i 0#w

/-- Adding a keystream keeps the length, as a stream cipher should. No entry is added to
fill a block. -/
theorem length_add (stream : Nat → BitVec w) (text : List (BitVec w)) :
    (add stream text).length = text.length := by
  simp [add]

/-- The entries of a text with a keystream added. Inside the text each entry depends on its
own position only. -/
theorem get_add (stream : Nat → BitVec w) {text : List (BitVec w)} {i : Nat}
    (inside : i < text.length) :
    (add stream text).getD i 0#w = stream i ^^^ text.getD i 0#w := by
  simp [add, inside]

/-- Texts of one length are equal when their entries are. Reading outside a text gives zero,
so the length has to be known. -/
theorem ext_get {left right : List (BitVec w)} (length : left.length = right.length)
    (entries : ∀ i, i < left.length → left.getD i 0#w = right.getD i 0#w) : left = right := by
  apply List.ext_getElem length
  intro i here there
  have same := entries i here
  rwa [List.getD_eq_getElem _ _ here, List.getD_eq_getElem _ _ there] at same

/-- Adding a keystream and then another restores the text exactly when the two agree at
every position of the text. -/
theorem add_add_iff (stream other : Nat → BitVec w) (text : List (BitVec w)) :
    add other (add stream text) = text ↔ ∀ i, i < text.length → other i = stream i := by
  have restored {i : Nat} (inside : i < text.length) :
      (add other (add stream text)).getD i 0#w = other i ^^^ (stream i ^^^ text.getD i 0#w) := by
    rw [get_add other (by rwa [length_add]), get_add stream inside]
  constructor
  · intro same i inside
    have entry := restored inside
    rw [same, ← BitVec.xor_assoc] at entry
    have cancelled : other i ^^^ stream i = 0#w := by
      rw [← BitVec.xor_left_inj (text.getD i 0#w), BitVec.zero_xor]
      exact entry.symm
    exact BitVec.xor_eq_zero_iff.mp cancelled
  · intro agree
    apply ext_get (by rw [length_add, length_add])
    intro i inside
    rw [length_add, length_add] at inside
    rw [restored inside, agree i inside, ← BitVec.xor_assoc, BitVec.xor_self, BitVec.zero_xor]

end Keystream
