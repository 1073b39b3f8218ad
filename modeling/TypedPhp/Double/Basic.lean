set_option autoImplicit false

/-!
# Binary64 numbers

A number is its 64 bits: a sign bit over a 63-bit magnitude. The magnitudes below that of the
infinities stand for the finite numbers in increasing order, so every order on numbers here is
an order on whole numbers. `Double.units` gives the value of a finite magnitude as a multiple
of the least positive number `2 ^ -1074`, which makes every exact statement about finite
numbers a statement in `Nat`.
-/

namespace TypedPhp

/-- A binary64 number, as its 64 bits. -/
structure Double where
  bits : UInt64
deriving DecidableEq, Repr, Inhabited

namespace Double

/-- The bits below the sign bit, read as a whole number. -/
def magnitude (x : Double) : Nat := x.bits.toNat % Nat.pow 2 63

/-- Whether the sign bit is set. -/
def isNegative (x : Double) : Bool := Nat.pow 2 63 ≤ x.bits.toNat

/-- The number with the given sign and magnitude. -/
def ofMagnitude (negative : Bool) (m : Nat) : Double :=
  ⟨UInt64.ofNat ((if negative then Nat.pow 2 63 else 0) + m % Nat.pow 2 63)⟩

/-- The magnitude of the infinities; a larger one is a NaN. -/
def infiniteMagnitude : Nat := 2047 * Nat.pow 2 52

def isNaN (x : Double) : Bool := infiniteMagnitude < x.magnitude

def isInfinite (x : Double) : Bool := x.magnitude = infiniteMagnitude

def isFinite (x : Double) : Bool := x.magnitude < infiniteMagnitude

/-- Either of the two zeros. -/
def isZero (x : Double) : Bool := x.magnitude = 0

/-- The quiet NaN with an empty payload. -/
def nan : Double := ⟨0x7ff8000000000000⟩

def infinity : Double := ⟨0x7ff0000000000000⟩

/-- The number with the sign bit flipped, whatever the magnitude. -/
def neg (x : Double) : Double := ofMagnitude (!x.isNegative) x.magnitude

instance : Neg Double := ⟨neg⟩

theorem magnitude_lt (x : Double) : x.magnitude < Nat.pow 2 63 := Nat.mod_lt _ (by decide)

theorem magnitude_ofMagnitude (negative : Bool) {m : Nat} (hm : m < Nat.pow 2 63) :
    (ofMagnitude negative m).magnitude = m := by
  cases negative <;> simp [magnitude, ofMagnitude] <;> omega

theorem isNegative_ofMagnitude (negative : Bool) (m : Nat) :
    (ofMagnitude negative m).isNegative = negative := by
  cases negative <;> simp [isNegative, ofMagnitude] <;> omega

/-- The sign and the magnitude are all the bits. -/
theorem bits_eq {x y : Double} (hsign : x.isNegative = y.isNegative)
    (hmag : x.magnitude = y.magnitude) : x.bits = y.bits := by
  have hx := x.bits.toNat_lt
  have hy := y.bits.toNat_lt
  have hhalf : Nat.pow 2 63 = 9223372036854775808 := rfl
  rw [isNegative, isNegative, hhalf, decide_eq_decide] at hsign
  rw [magnitude, magnitude, hhalf] at hmag
  apply UInt64.toNat_inj.1
  omega

theorem magnitude_neg (x : Double) : x.neg.magnitude = x.magnitude :=
  magnitude_ofMagnitude _ x.magnitude_lt

theorem isNegative_neg (x : Double) : x.neg.isNegative = !x.isNegative :=
  isNegative_ofMagnitude _ _

theorem neg_neg (x : Double) : x.neg.neg = x := by
  have hbits : x.neg.neg.bits = x.bits := by
    apply bits_eq
    · rw [isNegative_neg, isNegative_neg, Bool.not_not]
    · rw [magnitude_neg, magnitude_neg]
  exact congrArg mk hbits

/-! ## Value of a finite magnitude -/

/-- The value of a finite magnitude in units of `2 ^ -1074`: a subnormal is its fraction, and
a normal number has a leading one above its 52 fraction bits. -/
def units (m : Nat) : Nat :=
  if m < Nat.pow 2 52 then m
  else (Nat.pow 2 52 + m % Nat.pow 2 52) * Nat.pow 2 (m / Nat.pow 2 52 - 1)

/-- How many of the units of `Double.units` make one. -/
def unitsPerOne : Nat := Nat.pow 2 1074

/-! ## Comparisons -/

/-- Equality of numbers: a NaN equals nothing, and the two zeros are equal. -/
def numEq (x y : Double) : Bool :=
  !x.isNaN && !y.isNaN && (x.bits == y.bits || (x.isZero && y.isZero))

/-- The place of a number in the total order of bit patterns: negative NaNs first, then the
numbers in increasing order with `-0.0` below `0.0`, then positive NaNs. -/
def rank (x : Double) : Int :=
  if x.isNegative then -(x.magnitude : Int) - 1 else x.magnitude

/-- Comparison in the total order of bit patterns. -/
def totalCompare (x y : Double) : Ordering := compare x.rank y.rank

/-- Whether a number lies in the closed interval from zero to one. -/
def isProbability (x : Double) : Bool :=
  x.isZero || (!x.isNegative && x.magnitude ≤ 1023 * Nat.pow 2 52)

/-- Whether a number is exactly one. -/
def isOne (x : Double) : Bool := x.bits == 0x3ff0000000000000

end Double

end TypedPhp
