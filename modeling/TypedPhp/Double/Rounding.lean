import TypedPhp.Double.Basic

set_option autoImplicit false

/-!
# Rounding to binary64

`Double.ofRatio` rounds an exact fraction once, to the nearest number with a half going to the
even neighbour. Every other conversion is stated through it.
-/

namespace TypedPhp

/-- The whole number nearest to `num / den`, a half going to the even neighbour. -/
def divRoundEven (num den : Nat) : Nat :=
  let q := num / den
  let r := num % den
  if 2 * r < den then q
  else if den < 2 * r then q + 1
  else q + q % 2

namespace Double

/-- The magnitude nearest to `num / den`. Around a value of `2 ^ (52 + e)` units the magnitudes
are `2 ^ e` units apart, and consecutive magnitudes continue from one such stretch to the next,
so a carry out of the stretch needs no case of its own. -/
def nearestMagnitude (num den : Nat) : Nat :=
  let scaled := num * unitsPerOne
  let e := (scaled / den).log2 - 52
  min infiniteMagnitude (e * Nat.pow 2 52 + divRoundEven scaled (den * Nat.pow 2 e))

/-- The number nearest to `num / den` with the given sign. -/
def ofRatio (negative : Bool) (num den : Nat) : Double :=
  ofMagnitude negative (nearestMagnitude num den)

/-- Rounding gives no NaN. -/
theorem isNaN_ofRatio (negative : Bool) (num den : Nat) :
    (ofRatio negative num den).isNaN = false := by
  have hle : nearestMagnitude num den ≤ infiniteMagnitude := Nat.min_le_left _ _
  have hmagnitude : (ofRatio negative num den).magnitude = nearestMagnitude num den :=
    magnitude_ofMagnitude negative (Nat.lt_of_le_of_lt hle (by decide))
  rw [isNaN, hmagnitude]
  exact decide_eq_false (Nat.not_lt_of_le hle)

/-- The number nearest to a whole number; zero is positive. -/
def ofInt (n : Int) : Double := ofRatio (n < 0) n.natAbs 1

/-- The number nearest to `digits * 10 ^ exponent`. A power that takes the value far out of
range is not computed. -/
def ofDecimal (negative : Bool) (digits : Nat) (exponent : Int) : Double :=
  if digits = 0 then ofMagnitude negative 0
  else if 400 < exponent then ofMagnitude negative infiniteMagnitude
  else if exponent + (digits.log2 : Int) < -1200 then ofMagnitude negative 0
  else ofRatio negative (digits * Nat.pow 10 exponent.toNat) (Nat.pow 10 (-exponent).toNat)

/-- The whole part of a probability times `2 ^ 64`. -/
def scaledTo64 (x : Double) : Nat := units x.magnitude * Nat.pow 2 64 / unitsPerOne

end Double

end TypedPhp
