import AesCore.Fips197

/-!
# Blocks as lists of bytes

Software keeps a block as sixteen bytes, in the order in which the standard numbers
them: column by column, and from the top of a column down. Bytes that a list does not
have are zero.
-/

namespace AesCore.Fips197

open ByteField (Byte)

/-- The bytes of an input as a state. The standard fills the state by columns, so byte `i`
goes to row `i % 4` of column `i / 4`; bytes that are missing are zero. -/
def stateOf (bytes : List Byte) : State := fun r c => bytes.getD (r.val + 4 * c.val) 0#8

/-- The bytes of a state as an output, read off by columns as the standard does. There are
always sixteen of them. -/
def bytesOf (state : State) : List Byte :=
  (List.range 16).map fun i => state (Fin.ofNat 4 i) (Fin.ofNat 4 (i / 4))

/-- The block of sixteen bytes. A block is the vector of 128 bits in which the hardware
holds a text, its first byte in the highest bits. -/
def blockOf (bytes : List Byte) : Block := ofState (stateOf bytes)

/-- The sixteen bytes of a block, in the order of the standard. Programs hold texts in this
form, and their results are compared with blocks through it. -/
def blockBytes (text : Block) : List Byte := bytesOf (toState text)

/-- A position in a state, as a position in its bytes: row `r` of column `c` is byte
`r + 4 * c`. -/
theorem get_bytes_of (state : State) (r c : Fin 4) :
    (bytesOf state).getD (r.val + 4 * c.val) 0#8 = state r c := by
  have inside : r.val + 4 * c.val < 16 := by omega
  have row : Fin.ofNat 4 (r.val + 4 * c.val) = r := Fin.ext (by rw [Fin.val_ofNat]; omega)
  have column : Fin.ofNat 4 ((r.val + 4 * c.val) / 4) = c :=
    Fin.ext (by rw [Fin.val_ofNat]; omega)
  have found : (List.range 16)[r.val + 4 * c.val]? = some (r.val + 4 * c.val) :=
    List.getElem?_range inside
  rw [bytesOf, List.getD_eq_getElem?_getD, List.getElem?_map, found]
  exact congrArg₂ state row column

/-- The bytes of a block make the block. So nothing is lost where a text goes through the
bytes of a program and back. -/
theorem block_of_block_bytes (text : Block) : blockOf (blockBytes text) = text := by
  have same : stateOf (blockBytes text) = toState text := by
    funext r c
    exact get_bytes_of (toState text) r c
  rw [blockOf, same, of_state_to_state]

end AesCore.Fips197
