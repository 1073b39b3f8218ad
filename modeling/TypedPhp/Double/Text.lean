import TypedPhp.Double.Shortest

set_option autoImplicit false

/-!
# Numbers as text

`FloatFormat` holds the decisions of one way to write numbers, and `Double.format` writes a
number by them. The digits are always the shortest that read back.
-/

namespace TypedPhp

/-- How numbers are written. -/
structure FloatFormat where
  /-- Whether every number is written without an exponent. -/
  neverExponent : Bool
  /-- Whether a whole number keeps one fraction digit. -/
  keepsFraction : Bool
  /-- The text of every NaN. -/
  nan : String
  /-- The text of the positive infinity. -/
  infinity : String

namespace FloatFormat

/-- Source text of a literal. -/
def literal : FloatFormat := ⟨false, true, "NAN", "INF"⟩

/-- A number inside a message about the number itself. -/
def exact : FloatFormat := ⟨false, true, "NaN", "inf"⟩

/-- A number inside running text. -/
def plain : FloatFormat := ⟨true, false, "NaN", "inf"⟩

end FloatFormat

namespace Scientific

/-- Positional notation. -/
def positional (keepsFraction : Bool) (s : Scientific) : List Char :=
  if s.point ≤ 0 then
    '0' :: '.' :: (List.replicate (-s.point).toNat '0' ++ s.digits)
  else
    let whole := s.point.toNat
    if whole < s.digits.length then s.digits.take whole ++ '.' :: s.digits.drop whole
    else
      s.digits ++ List.replicate (whole - s.digits.length) '0' ++
        (if keepsFraction then ['.', '0'] else [])

/-- Exponent notation: one digit before the point, and no point after a single digit. -/
def exponential (s : Scientific) : List Char :=
  let mantissa :=
    match s.digits with
    | [] => []
    | [d] => [d]
    | d :: rest => d :: '.' :: rest
  mantissa ++ 'e' :: (toString (s.point - 1)).toList

/-- Positional notation from `10 ^ -4` up to `10 ^ 16`, exponent notation outside, unless the
format never uses exponents. -/
def format (f : FloatFormat) (s : Scientific) : List Char :=
  if f.neverExponent || (-3 ≤ s.point && s.point ≤ 16) then s.positional f.keepsFraction
  else s.exponential

end Scientific

namespace Double

/-- The text of the finite or infinite magnitude `m`. -/
def formatMagnitude (f : FloatFormat) (m : Nat) : List Char :=
  if m = 0 then (if f.keepsFraction then ['0', '.', '0'] else ['0'])
  else if m = infiniteMagnitude then f.infinity.toList
  else (shortest m).format f

/-- The text of a number; the sign of a zero is kept, that of a NaN is not. -/
def format (f : FloatFormat) (x : Double) : List Char :=
  if x.isNaN then f.nan.toList
  else (if x.isNegative then ['-'] else []) ++ formatMagnitude f x.magnitude

end Double

end TypedPhp
