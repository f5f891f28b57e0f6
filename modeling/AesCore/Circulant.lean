/-!
# Circulant maps of bit-vector columns

Addition of bit vectors is exclusive or, and the maps that respect it are the
linear ones. A circulant map of a four-entry column applies one linear map to
each cyclic distance. Two circulant maps compose by cyclic convolution of their
coefficients, so whether one undoes the other is a question about single entries
and not about whole columns.
-/

namespace Circulant

variable {w : Nat}

/-- A column is not empty. All literals of its index type rest on this one instance. -/
instance indexNeZero : @NeZero Nat Zero.ofOfNat0 4 := ⟨Nat.succ_ne_zero 3⟩

/-- A map of bit vectors that commutes with exclusive or. Multiplication by a constant in a
field of characteristic two is such a map, and so are shifts and rotations. -/
def Linear (f : BitVec w → BitVec w) : Prop := ∀ a b, f (a ^^^ b) = f a ^^^ f b

/-- Regroup a sum of two sums: the summands in first place are collected, and those in
second place. It is what makes a sum of linear maps linear. -/
theorem xor_xor_xor_comm (a b c d : BitVec w) :
    (a ^^^ b) ^^^ (c ^^^ d) = (a ^^^ c) ^^^ (b ^^^ d) := by
  ac_rfl

/-- The identity is linear. It is the coefficient at distance zero of the map that does
nothing, against which products of circulant maps are compared. -/
theorem linear_id : Linear (fun a : BitVec w => a) := fun _ _ => rfl

/-- Linear maps compose. The coefficients of the mixed columns are built in this way from
one doubling, and are linear because that is. -/
theorem Linear.comp {f g : BitVec w → BitVec w} (outer : Linear f) (inner : Linear g) :
    Linear (fun a => f (g a)) := by
  intro a b
  simp only [inner a b, outer (g a) (g b)]

/-- Linear maps add: the sum of two of them, taken at every argument, is linear. With
composition this gives every polynomial in a linear map. -/
theorem Linear.add {f g : BitVec w → BitVec w} (left : Linear f) (right : Linear g) :
    Linear (fun a => f a ^^^ g a) := by
  intro a b
  simp only [left a b, right a b, xor_xor_xor_comm]

/-- A linear map sends zero to zero, because zero is the sum of any vector with itself. -/
theorem Linear.map_zero {f : BitVec w → BitVec w} (linear : Linear f) : f 0#w = 0#w := by
  have doubled : f 0#w = f 0#w ^^^ f 0#w := by
    rw [← linear, BitVec.xor_self]
  rw [doubled, BitVec.xor_self]

/-- The low `n` bits of a vector, the others cleared. A vector is put together from its bits
by letting `n` grow. -/
def low (n : Nat) (a : BitVec w) : BitVec w := (a.setWidth n).setWidth w

/-- One more low bit adds at most one power of two. It is the step of the induction by which
a vector is the sum of the powers of two at its bits. -/
theorem low_succ (n : Nat) (a : BitVec w) :
    low (n + 1) a = low n a ^^^ (if a.getLsbD n then BitVec.twoPow w n else 0#w) := by
  apply BitVec.eq_of_getLsbD_eq
  intro i inside
  by_cases same : i = n
  · subst same
    cases bit : a.getLsbD i with
    | false => simp only [low, bit, Bool.false_eq_true, ↓reduceIte, BitVec.xor_zero,
        BitVec.getLsbD_setWidth, inside, decide_true, Bool.and_false]
    | true => simp only [low, bit, ↓reduceIte, BitVec.getLsbD_xor, BitVec.getLsbD_setWidth,
        BitVec.getLsbD_twoPow, inside, decide_true, Nat.lt_succ_self, Nat.lt_irrefl,
        decide_false, Bool.and_self, Bool.false_and, Bool.and_false, Bool.false_xor]
  · have bounds : i < n + 1 ↔ i < n := by omega
    have different : n ≠ i := Ne.symm same
    cases a.getLsbD n <;> simp [low, bounds, different]

/-- Linear maps that agree on the powers of two agree everywhere, so an identity of
linear maps needs one check for each bit and not one for each vector.

Add the bits of the argument from below: every sum of powers of two is mapped to
the sum of their images. -/
theorem Linear.ext {f g : BitVec w → BitVec w} (left : Linear f) (right : Linear g)
    (basis : ∀ i, i < w → f (BitVec.twoPow w i) = g (BitVec.twoPow w i)) (a : BitVec w) :
    f a = g a := by
  have sums (n : Nat) (bounded : n ≤ w) : f (low n a) = g (low n a) := by
    induction n with
    | zero =>
      have none : low 0 a = 0#w := by
        apply BitVec.eq_of_getLsbD_eq
        simp [low]
      rw [none, left.map_zero, right.map_zero]
    | succ n inductionHypothesis =>
      rw [low_succ, left, right, inductionHypothesis (by omega)]
      cases a.getLsbD n with
      | false => simp only [Bool.false_eq_true, ↓reduceIte, left.map_zero, right.map_zero]
      | true => simp only [↓reduceIte, basis n (by omega)]
  have whole : low w a = a := by simp [low]
  rw [← whole, sums w (Nat.le_refl w)]

/-- Entry `r` of the image adds the entry at each cyclic distance `i` below `r`,
after the coefficient for that distance. -/
def circulant (f : Fin 4 → BitVec w → BitVec w) (column : Fin 4 → BitVec w) : Fin 4 → BitVec w :=
  fun r => f 0 (column r) ^^^ f 1 (column (r + 1)) ^^^ f 2 (column (r + 2)) ^^^ f 3 (column (r + 3))

/-- The same entry as the sum of the contributions of the rows in their order. -/
theorem circulant_by_row (f : Fin 4 → BitVec w → BitVec w) (column : Fin 4 → BitVec w)
    (r : Fin 4) : circulant f column r = f (0 - r) (column 0) ^^^ f (1 - r) (column 1) ^^^
      f (2 - r) (column 2) ^^^ f (3 - r) (column 3) := by
  match r with
  | 0 => rfl
  | 1 | 2 | 3 =>
    simp only [circulant, Fin.isValue, Fin.reduceAdd, Fin.reduceSub]
    ac_rfl

/-- A circulant map with linear coefficients adds columns entry by entry. So a round key may
be added before such a map or, mapped itself, after it. -/
theorem circulant_add {f : Fin 4 → BitVec w → BitVec w} (linear : ∀ i, Linear (f i))
    (left right : Fin 4 → BitVec w) (r : Fin 4) :
    circulant f (fun i => left i ^^^ right i) r = circulant f left r ^^^ circulant f right r := by
  simp only [circulant, linear 0 _ _, linear 1 _ _, linear 2 _ _, linear 3 _ _]
  ac_rfl

/-- The cyclic convolution of two coefficient families. Its coefficient at a distance
collects the pairs of distances that add up to it. -/
def convolve (g f : Fin 4 → BitVec w → BitVec w) : Fin 4 → BitVec w → BitVec w :=
  fun k a => g 0 (f k a) ^^^ g 1 (f (k - 1) a) ^^^ g 2 (f (k - 2) a) ^^^ g 3 (f (k - 3) a)

/-- The convolution of linear coefficients is linear, being a sum of compositions. So it is
known everywhere once it is known on the powers of two. -/
theorem convolve_linear {g f : Fin 4 → BitVec w → BitVec w} (outer : ∀ i, Linear (g i))
    (inner : ∀ i, Linear (f i)) (k : Fin 4) : Linear (convolve g f k) :=
  ((((outer 0).comp (inner k)).add ((outer 1).comp (inner (k - 1)))).add
    ((outer 2).comp (inner (k - 2)))).add ((outer 3).comp (inner (k - 3)))

/-- Composition is convolution of the coefficients, as soon as the outer ones are
linear. Each of the four rows collects the same sixteen summands. -/
theorem circulant_circulant {g f : Fin 4 → BitVec w → BitVec w} (linear : ∀ i, Linear (g i))
    (column : Fin 4 → BitVec w) :
    circulant g (circulant f column) = circulant (convolve g f) column := by
  have expand (i : Fin 4) (a b c d : BitVec w) :
      g i (a ^^^ b ^^^ c ^^^ d) = g i a ^^^ g i b ^^^ g i c ^^^ g i d := by
    rw [linear i, linear i, linear i]
  have distance (r i j : Fin 4) : r + i + j = r + (i + j) := by
    revert r i j
    decide
  have origin (r : Fin 4) : r + 0 = r := by
    revert r
    decide
  funext r
  simp only [circulant, convolve, expand, distance, Fin.isValue, Fin.reduceAdd, Fin.reduceSub,
    origin]
  ac_rfl

/-- A circulant map undoes another one when the convolution of their coefficients
is the unit: the identity at distance zero and nothing elsewhere. Linearity leaves
only the powers of two to be checked. -/
theorem circulant_inverse {g f : Fin 4 → BitVec w → BitVec w} (outer : ∀ i, Linear (g i))
    (inner : ∀ i, Linear (f i))
    (unit : ∀ k i, i < w → convolve g f k (BitVec.twoPow w i) =
      if k = 0 then BitVec.twoPow w i else 0#w)
    (column : Fin 4 → BitVec w) : circulant g (circulant f column) = column := by
  have identity (k : Fin 4) (a : BitVec w) : convolve g f k a = if k = 0 then a else 0#w := by
    have linear : Linear fun a : BitVec w => if k = 0 then a else 0#w := by
      intro a b
      split <;> simp
    exact (convolve_linear outer inner k).ext linear (unit k) a
  rw [circulant_circulant outer]
  funext r
  simp [circulant, identity]

end Circulant
