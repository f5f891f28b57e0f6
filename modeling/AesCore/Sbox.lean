import AesCore.ByteField

/-!
# The S-box ROMs

`aes_sbox` and `aes_inv_sbox` are case statements over all 256 input values. Here
each is a table of sixteen rows; row `x` holds the outputs for the inputs `x0` to
`xf`, the first in the leftmost byte. Both tables are shown to agree with the
algebraic S-box of the standard at every input.
-/

namespace AesCore.Sbox

open ByteField (Byte mul invAffine sBox invSBox)

/-- Entry `i` of a table in rows of sixteen bytes, the first byte of a row in its highest
bits. -/
def romEntry (rows : List (BitVec 128)) (i : Nat) : Byte :=
  (rows.getD (i / 16) 0#128).extractLsb' (8 * (15 - i % 16)) 8

/-- The cases of `aes_sbox`, sixteen to a row. The literals are those of the source, side by
side. -/
def sboxRows : List (BitVec 128) :=
  [0x637c777bf26b6fc53001672bfed7ab76#128,
   0xca82c97dfa5947f0add4a2af9ca472c0#128,
   0xb7fd9326363ff7cc34a5e5f171d83115#128,
   0x04c723c31896059a071280e2eb27b275#128,
   0x09832c1a1b6e5aa0523bd6b329e32f84#128,
   0x53d100ed20fcb15b6acbbe394a4c58cf#128,
   0xd0efaafb434d338545f9027f503c9fa8#128,
   0x51a3408f929d38f5bcb6da2110fff3d2#128,
   0xcd0c13ec5f974417c4a77e3d645d1973#128,
   0x60814fdc222a908846eeb814de5e0bdb#128,
   0xe0323a0a4906245cc2d3ac629195e479#128,
   0xe7c8376d8dd54ea96c56f4ea657aae08#128,
   0xba78252e1ca6b4c6e8dd741f4bbd8b8a#128,
   0x703eb5664803f60e613557b986c11d9e#128,
   0xe1f8981169d98e949b1e87e9ce5528df#128,
   0x8ca1890dbfe6426841992d0fb054bb16#128]

/-- The cases of `aes_inv_sbox`, sixteen to a row, as in the source. -/
def invSboxRows : List (BitVec 128) :=
  [0x52096ad53036a538bf40a39e81f3d7fb#128,
   0x7ce339829b2fff87348e4344c4dee9cb#128,
   0x547b9432a6c2233dee4c950b42fac34e#128,
   0x082ea16628d924b2765ba2496d8bd125#128,
   0x72f8f66486689816d4a45ccc5d65b692#128,
   0x6c704850fdedb9da5e154657a78d9d84#128,
   0x90d8ab008cbcd30af7e45805b8b34506#128,
   0xd02c1e8fca3f0f02c1afbd0301138a6b#128,
   0x3a9111414f67dcea97f2cfcef0b4e673#128,
   0x96ac7422e7ad3585e2f937e81c75df6e#128,
   0x47f11a711d29c5896fb7620eaa18be1b#128,
   0xfc563e4bc6d279209adbc0fe78cd5af4#128,
   0x1fdda8338807c731b11210592780ec5f#128,
   0x60517fa919b54a0d2de57a9f93c99cef#128,
   0xa0e03b4dae2af5b0c8ebbb3c83539961#128,
   0x172b047eba77d626e169146355210c7d#128]

/-- Module `aes_sbox`: output `d` for input `a`. The case statement has an entry for every
input. -/
def aesSbox (a : Byte) : Byte := romEntry sboxRows a.toNat

/-- Module `aes_inv_sbox`: output `d` for input `a`, an entry for every input again. -/
def aesInvSbox (a : Byte) : Byte := romEntry invSboxRows a.toNat

/-- A ROM entry without its affine map is the multiplicative inverse of its address. So the
table is checked against the definition of the S-box and not against another table. -/
theorem mul_inv_affine_aes_sbox :
    ∀ a : Byte, a ≠ 0#8 → mul a (invAffine (aesSbox a)) = 0x01#8 := by decide +kernel

/-- The ROM is the S-box of the standard: the inverse in the field is unique, and zero is a
case of its own. -/
theorem aes_sbox_eq (a : Byte) : aesSbox a = sBox a := by
  by_cases zero : a = 0#8
  · subst zero
    decide +kernel
  · rw [sBox, ByteField.inverse_unique (mul_inv_affine_aes_sbox a zero),
      ByteField.affine_inv_affine]

/-- The two ROMs undo each other, on each of the 256 bytes. -/
theorem aes_inv_sbox_aes_sbox : ∀ a : Byte, aesInvSbox (aesSbox a) = a := by decide +kernel

/-- The inverse ROM is the inverse S-box of the standard, since it undoes the ROM and the
S-box is a permutation. -/
theorem aes_inv_sbox_eq (a : Byte) : aesInvSbox a = invSBox a := by
  calc aesInvSbox a
    _ = aesInvSbox (aesSbox (invSBox a)) := by rw [aes_sbox_eq, ByteField.s_box_inv_s_box]
    _ = invSBox a := aes_inv_sbox_aes_sbox _

end AesCore.Sbox
