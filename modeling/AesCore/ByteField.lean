import AesCore.Circulant
import Mathlib.Logic.Function.Iterate

/-!
# Bytes as elements of GF(2^8)

FIPS-197 reads a byte as a polynomial over the field of two elements, adds bytes
by exclusive or and multiplies them modulo `x^8 + x^4 + x^3 + x + 1`. The S-box is
the multiplicative inverse followed by an affine map of the bits; it is defined
here from that description, and not from any table.

Multiplication by a fixed byte is linear. `MixColumns` and its inverse multiply
each column by a circulant matrix of such bytes, so the library on circulant maps
reduces their inversion to four identities on single bytes.
-/

namespace AesCore.ByteField

open Circulant (Linear circulant convolve)

/-- A byte, with the coefficient of `x^i` in bit `i`. Addition is exclusive or. -/
abbrev Byte := BitVec 8

/-- Multiplication by `x`: a shift, reduced by `{1b}` when `x^8` appears. -/
def xtime (b : Byte) : Byte := if b.msb then (b <<< 1) ^^^ 0x1b#8 else b <<< 1

/-- Horner's rule over the `n` leading coefficients of `a`, applied to `b`: double, and add
`b` where the next coefficient is set. -/
def horner (a b : Byte) : Nat → Byte
  | 0 => 0#8
  | n + 1 => xtime (horner a b n) ^^^ (if a.getLsbD (7 - n) then b else 0#8)

/-- The product of two bytes, as polynomials modulo the polynomial of the standard. -/
def mul (a b : Byte) : Byte := horner a b 8

/-- The powers of `x`, reduced. They are the round constants of the key schedule. -/
def xPower : Nat → Byte
  | 0 => 0x01#8
  | n + 1 => xtime (xPower n)

/-- The 254th power, as the product of seven successive squares. It is the
multiplicative inverse of a nonzero byte and maps `{00}` to itself. -/
def inverse (b : Byte) : Byte :=
  let b2 := mul b b
  let b4 := mul b2 b2
  let b8 := mul b4 b4
  let b16 := mul b8 b8
  let b32 := mul b16 b16
  let b64 := mul b32 b32
  let b128 := mul b64 b64
  mul b2 (mul b4 (mul b8 (mul b16 (mul b32 (mul b64 b128)))))

/-- Bit `i` of the result adds bits `i`, `i + 4`, `i + 5`, `i + 6` and `i + 7` of the
argument, indices modulo eight, and bit `i` of `{63}`. -/
def affine (b : Byte) : Byte :=
  b ^^^ b.rotateLeft 4 ^^^ b.rotateLeft 3 ^^^ b.rotateLeft 2 ^^^ b.rotateLeft 1 ^^^ 0x63#8

/-- Bit `i` of the result adds bits `i + 2`, `i + 5` and `i + 7` of the argument,
indices modulo eight, and bit `i` of `{05}`. -/
def invAffine (b : Byte) : Byte :=
  b.rotateLeft 6 ^^^ b.rotateLeft 3 ^^^ b.rotateLeft 1 ^^^ 0x05#8

/-- The S-box: the multiplicative inverse, with zero mapped to itself, and then the affine
map. -/
def sBox (b : Byte) : Byte := affine (inverse b)

/-- The inverse S-box: the inverse affine map, and then the multiplicative inverse. -/
def invSBox (b : Byte) : Byte := inverse (invAffine b)

/-- The two affine maps undo each other, on each of the 256 bytes. -/
theorem inv_affine_affine : ∀ b : Byte, invAffine (affine b) = b := by decide +kernel

/-- Adding the same byte to both summands cancels, since a byte is its own negative. -/
theorem xor_cancel_right (a b c : Byte) : (a ^^^ c) ^^^ (b ^^^ c) = a ^^^ b := by
  rw [Circulant.xor_xor_xor_comm, BitVec.xor_self, BitVec.xor_zero]

/-- Multiplication by `x` is linear: the two reductions cancel when both appear. -/
theorem xtime_linear : Linear xtime := by
  intro a b
  have regroup (a b c : Byte) : a ^^^ b ^^^ c = (a ^^^ c) ^^^ b := by ac_rfl
  simp only [xtime, BitVec.msb_xor, BitVec.shiftLeft_xor_distrib]
  cases a.msb <;> cases b.msb
  · rfl
  · exact BitVec.xor_assoc _ _ _
  · exact regroup _ _ _
  · exact (xor_cancel_right _ _ _).symm

/-- Multiplication by a fixed byte is linear. Each step of Horner's rule is a sum of linear
maps. -/
theorem mul_linear (a : Byte) : Linear (mul a) := by
  have steps (n : Nat) : Linear fun b => horner a b n := by
    induction n with
    | zero => exact fun _ _ => (BitVec.xor_self (x := 0#8)).symm
    | succ n inductionHypothesis =>
      have selected : Linear fun b : Byte => if a.getLsbD (7 - n) then b else 0#8 := by
        intro b c
        cases a.getLsbD (7 - n) <;> simp
      exact (xtime_linear.comp inductionHypothesis).add selected
  exact steps 8

/-- Multiplication is linear in its first factor too, because each step of Horner's rule
looks at one coefficient. -/
theorem mul_linear_left (b : Byte) : Linear fun a => mul a b := by
  have steps (n : Nat) : Linear fun a => horner a b n := by
    induction n with
    | zero => exact fun _ _ => (BitVec.xor_self (x := 0#8)).symm
    | succ n inductionHypothesis =>
      have selected : Linear fun a : Byte => if a.getLsbD (7 - n) then b else 0#8 := by
        intro a c
        simp only [BitVec.getLsbD_xor]
        cases a.getLsbD (7 - n) <;> cases c.getLsbD (7 - n) <;> simp
      exact (xtime_linear.comp inductionHypothesis).add selected
  exact steps 8

/-- Multiplication is commutative: by linearity in both factors, it is enough that the
powers of `x` commute. -/
theorem mul_comm (a b : Byte) : mul a b = mul b a := by
  have powers : ∀ i, i < 8 → ∀ j, j < 8 → mul (BitVec.twoPow 8 i) (BitVec.twoPow 8 j) =
      mul (BitVec.twoPow 8 j) (BitVec.twoPow 8 i) := by
    decide +kernel
  apply (mul_linear_left b).ext (mul_linear b) _ a
  intro i inside
  exact (mul_linear _).ext (mul_linear_left _) (fun j bounded => powers i inside j bounded) b

/-- Multiplication is associative: again only the powers of `x` matter, and there are eight
of them in each factor. -/
theorem mul_assoc (a b c : Byte) : mul (mul a b) c = mul a (mul b c) := by
  have powers : ∀ i, i < 8 → ∀ j, j < 8 → ∀ k, k < 8 →
      mul (mul (BitVec.twoPow 8 i) (BitVec.twoPow 8 j)) (BitVec.twoPow 8 k) =
        mul (BitVec.twoPow 8 i) (mul (BitVec.twoPow 8 j) (BitVec.twoPow 8 k)) := by
    decide +kernel
  apply ((mul_linear_left c).comp (mul_linear_left b)).ext (mul_linear_left (mul b c)) _ a
  intro i inside
  apply ((mul_linear_left c).comp (mul_linear _)).ext ((mul_linear _).comp (mul_linear_left c)) _ b
  intro j bounded
  exact (mul_linear _).ext ((mul_linear _).comp (mul_linear _))
    (fun k => powers i inside j bounded k) c

/-- The unit: multiplication by one changes nothing, as is checked on the powers of `x`. -/
theorem one_mul (b : Byte) : mul 0x01#8 b = b := by
  have powers : ∀ i, i < 8 → mul 0x01#8 (BitVec.twoPow 8 i) = BitVec.twoPow 8 i := by
    decide +kernel
  exact (mul_linear _).ext Circulant.linear_id powers b

/-- Squaring is linear: the mixed products cancel, because they come in pairs. -/
theorem square_linear : Linear fun b => mul b b := by
  intro a b
  calc mul (a ^^^ b) (a ^^^ b)
    _ = mul a (a ^^^ b) ^^^ mul b (a ^^^ b) := mul_linear_left _ a b
    _ = (mul a a ^^^ mul a b) ^^^ (mul b a ^^^ mul b b) := by rw [mul_linear a, mul_linear b]
    _ = (mul a a ^^^ mul a b) ^^^ (mul b b ^^^ mul a b) := by
      rw [mul_comm b a, BitVec.xor_comm (mul a b) (mul b b)]
    _ = mul a a ^^^ mul b b := xor_cancel_right _ _ _

/-- Eight squarings give every byte back. They are linear, so the powers of `x` decide. -/
theorem square_eight (b : Byte) : Nat.iterate (fun b => mul b b) 8 b = b := by
  have squarings (n : Nat) : Linear (Nat.iterate (fun b => mul b b) n) := by
    induction n with
    | zero => exact Circulant.linear_id
    | succ n inductionHypothesis => exact inductionHypothesis.comp square_linear
  have powers : ∀ i, i < 8 →
      Nat.iterate (fun b => mul b b) 8 (BitVec.twoPow 8 i) = BitVec.twoPow 8 i := by
    decide +kernel
  exact (squarings 8).ext Circulant.linear_id powers b

/-- The product of a byte and its next `n` squares. The 254th power is such a product,
without the byte itself. -/
def squares : Nat → Byte → Byte
  | 0, b => b
  | n + 1, b => mul b (squares n (mul b b))

/-- Another factor in front collects the product to a single chain of squarings. The
induction is over the number of squares. -/
theorem mul_squares (n : Nat) (b : Byte) :
    mul b (squares n b) = Nat.iterate (fun b => mul b b) (n + 1) b := by
  induction n generalizing b with
  | zero => rfl
  | succ n inductionHypothesis =>
    rw [squares, ← mul_assoc, inductionHypothesis]
    rfl

/-- The product of a byte with itself and with its 254th power is the byte, since that is
the 256th power. -/
theorem mul_mul_inverse (b : Byte) : mul b (mul b (inverse b)) = b := by
  calc mul b (mul b (inverse b))
    _ = mul (mul b b) (squares 6 (mul b b)) := (mul_assoc b b (inverse b)).symm
    _ = Nat.iterate (fun b => mul b b) 8 b := mul_squares 6 (mul b b)
    _ = b := square_eight b

/-- Only zero and the unit are their own squares, as is checked on all bytes. It says that
the ring of bytes has no other idempotents. -/
theorem idempotent_cases : ∀ e : Byte, mul e e = e → e = 0#8 ∨ e = 0x01#8 := by decide +kernel

/-- The 254th power of a nonzero byte is its multiplicative inverse: the product of the two
is its own square and not zero. -/
theorem mul_inverse (b : Byte) (nonzero : b ≠ 0#8) : mul b (inverse b) = 0x01#8 := by
  have absorbed := mul_mul_inverse b
  have idempotent : mul (mul b (inverse b)) (mul b (inverse b)) = mul b (inverse b) := by
    rw [← mul_assoc, mul_comm (mul b (inverse b)) b, absorbed]
  rcases idempotent_cases _ idempotent with vanishes | unit
  · rw [vanishes, (mul_linear b).map_zero] at absorbed
    exact absurd absorbed.symm nonzero
  · exact unit

/-- A byte has no other inverse: a product with two inverses can be taken in two ways. -/
theorem inverse_unique {a b : Byte} (product : mul a b = 0x01#8) : inverse a = b := by
  have nonzero : a ≠ 0#8 := by
    rintro rfl
    rw [mul_comm, (mul_linear b).map_zero] at product
    exact absurd product (by decide)
  calc inverse a
    _ = mul (mul a b) (inverse a) := by rw [product, one_mul]
    _ = mul b (mul a (inverse a)) := by rw [mul_comm a b, mul_assoc]
    _ = b := by rw [mul_inverse a nonzero, mul_comm, one_mul]

/-- Taking the inverse twice gives the byte back, zero included. -/
theorem inverse_inverse (b : Byte) : inverse (inverse b) = b := by
  by_cases zero : b = 0#8
  · subst zero
    decide +kernel
  · apply inverse_unique
    rw [mul_comm, mul_inverse b zero]

/-- The affine maps undo each other in the other order too, on each of the 256 bytes. -/
theorem affine_inv_affine : ∀ b : Byte, affine (invAffine b) = b := by decide +kernel

/-- The inverse S-box undoes the S-box, since each of its two steps undoes one. -/
theorem inv_s_box_s_box (b : Byte) : invSBox (sBox b) = b := by
  rw [invSBox, sBox, inv_affine_affine, inverse_inverse]

/-- The S-box undoes the inverse S-box, so it is a permutation of the bytes. -/
theorem s_box_inv_s_box (b : Byte) : sBox (invSBox b) = b := by
  rw [invSBox, sBox, inverse_inverse, affine_inv_affine]

/-- The matrix of `MixColumns`, by cyclic distance from the diagonal: two, three, one and
one. -/
def mixCoefficient : Fin 4 → Byte → Byte
  | 0 => mul 0x02#8
  | 1 => mul 0x03#8
  | 2 => mul 0x01#8
  | 3 => mul 0x01#8

/-- The matrix of `InvMixColumns`, by cyclic distance from the diagonal. Every row is the
row before it, moved by one place. -/
def invMixCoefficient : Fin 4 → Byte → Byte
  | 0 => mul 0x0e#8
  | 1 => mul 0x0b#8
  | 2 => mul 0x0d#8
  | 3 => mul 0x09#8

/-- One column of `MixColumns`, as a circulant map with these coefficients. -/
def mixColumn : (Fin 4 → Byte) → Fin 4 → Byte := circulant mixCoefficient

/-- One column of `InvMixColumns`, as a circulant map with these coefficients. -/
def invMixColumn : (Fin 4 → Byte) → Fin 4 → Byte := circulant invMixCoefficient

/-- The coefficients of both matrices are linear, being multiplications by fixed bytes. -/
theorem coefficient_linear (i : Fin 4) :
    Linear (mixCoefficient i) ∧ Linear (invMixCoefficient i) := by
  match i with
  | 0 | 1 | 2 | 3 => exact ⟨mul_linear _, mul_linear _⟩

/-- The inverse matrix times the matrix is the unit matrix, and so is the product in the
other order. By linearity this is checked on the powers of `x`. -/
theorem convolve_unit : ∀ (k : Fin 4) (i : Nat), i < 8 →
    convolve invMixCoefficient mixCoefficient k (BitVec.twoPow 8 i) =
      (if k = 0 then BitVec.twoPow 8 i else 0#8) ∧
    convolve mixCoefficient invMixCoefficient k (BitVec.twoPow 8 i) =
      (if k = 0 then BitVec.twoPow 8 i else 0#8) := by
  decide +kernel

/-- `InvMixColumns` undoes `MixColumns` on every column, because the product of the matrices
is the unit. -/
theorem inv_mix_column_mix_column (column : Fin 4 → Byte) :
    invMixColumn (mixColumn column) = column :=
  Circulant.circulant_inverse (fun i => (coefficient_linear i).2)
    (fun i => (coefficient_linear i).1) (fun k i inside => (convolve_unit k i inside).1) column

/-- `MixColumns` undoes `InvMixColumns` on every column, by the product in the other
order. -/
theorem mix_column_inv_mix_column (column : Fin 4 → Byte) :
    mixColumn (invMixColumn column) = column :=
  Circulant.circulant_inverse (fun i => (coefficient_linear i).1)
    (fun i => (coefficient_linear i).2) (fun k i inside => (convolve_unit k i inside).2) column

end AesCore.ByteField
