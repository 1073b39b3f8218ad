import TypedPhp.Double.Rounding

set_option autoImplicit false

/-!
# Numbers in a settings file

The number grammar of TOML. Digits may be grouped by single underscores between two digits; an
integer has no leading zero, may be hexadecimal, octal or binary, and fits 64 bits with sign;
a float has a fraction or an exponent, or is infinite or not a number, and does not overflow to
positive infinity.
-/

namespace TypedPhp.Config

/-- A number as a settings file spells it. -/
inductive Number where
  | integer (value : Int)
  | float (value : Double)
deriving DecidableEq, Repr

namespace Number

/-- The value of a digit in a base, if the character is one. -/
def digitValue? (base : Nat) (c : Char) : Option Nat :=
  let value? :=
    if '0' ≤ c ∧ c ≤ '9' then some (c.toNat - '0'.toNat)
    else if 'a' ≤ c ∧ c ≤ 'f' then some (c.toNat - 'a'.toNat + 10)
    else if 'A' ≤ c ∧ c ≤ 'F' then some (c.toNat - 'A'.toNat + 10)
    else none
  value?.filter (· < base)

/-- The digit values of a group: the first and the last character are digits, and no two
underscores meet. -/
def group? (base : Nat) : List Char → Option (List Nat)
  | [] => none
  | [c] => (digitValue? base c).map fun d => [d]
  | c :: '_' :: cs => do
    let d ← digitValue? base c
    let ds ← group? base cs
    return d :: ds
  | c :: cs => do
    let d ← digitValue? base c
    let ds ← group? base cs
    return d :: ds

/-- The whole number with the given digits, the first the most significant. -/
def ofDigits (base : Nat) (ds : List Nat) : Nat := ds.foldl (fun n d => n * base + d) 0

/-- An integer that fits 64 bits with sign. -/
def integer? (n : Int) : Option Number :=
  if -0x8000000000000000 ≤ n ∧ n ≤ 0x7fffffffffffffff then some (.integer n) else none

/-- A float other than positive infinity. -/
def finiteOrNegative? (x : Double) : Option Number :=
  if x = .infinity then none else some (.float x)

/-- The sign at the front, if there is one, and what follows it. -/
def splitSign : List Char → Bool × List Char
  | '-' :: cs => (true, cs)
  | '+' :: cs => (false, cs)
  | cs => (false, cs)

/-- Whether a character may occur in a group of decimal digits. -/
def isGroupChar (c : Char) : Bool := c.isDigit || c = '_'

/-- The power of ten after a float's digits; without characters it is zero. -/
def exponent? : List Char → Option Int
  | [] => some 0
  | e :: cs =>
    if e = 'e' ∨ e = 'E' then
      let (negative, digits) := splitSign cs
      (group? 10 digits).map fun ds =>
        if negative then -(ofDigits 10 ds : Int) else (ofDigits 10 ds : Int)
    else none

/-- A decimal number from its unsigned spelling. -/
def decimal? (negative : Bool) (cs : List Char) : Option Number := do
  let whole ← group? 10 (cs.takeWhile isGroupChar)
  if whole.length ≠ 1 ∧ whole.head? = some 0 then none
  match cs.dropWhile isGroupChar with
  | [] =>
    let n : Int := ofDigits 10 whole
    integer? (if negative then -n else n)
  | '.' :: rest =>
    let fraction ← group? 10 (rest.takeWhile isGroupChar)
    let e ← exponent? (rest.dropWhile isGroupChar)
    finiteOrNegative? <|
      .ofDecimal negative (ofDigits 10 (whole ++ fraction)) (e - fraction.length)
  | rest =>
    let e ← exponent? rest
    finiteOrNegative? (.ofDecimal negative (ofDigits 10 whole) e)

/-- An unsigned integer in another base. -/
def based? (base : Nat) (cs : List Char) : Option Number := do
  let ds ← group? base cs
  integer? (ofDigits base ds)

/-- The number that a text spells, if it spells one. -/
def ofText? (cs : List Char) : Option Number :=
  match cs with
  | '0' :: 'x' :: ds => based? 16 ds
  | '0' :: 'o' :: ds => based? 8 ds
  | '0' :: 'b' :: ds => based? 2 ds
  | _ =>
    let (negative, rest) := splitSign cs
    if rest = "inf".toList then
      some (.float (.ofMagnitude negative Double.infiniteMagnitude))
    else if rest = "nan".toList then some (.float .nan)
    else decimal? negative rest

end Number

end TypedPhp.Config
