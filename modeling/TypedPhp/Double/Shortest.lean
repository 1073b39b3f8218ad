import TypedPhp.Double.Basic

set_option autoImplicit false

/-!
# The fewest digits that read back

A decimal reads back as a number when it lies in the interval of reals that round to it: the
ends of that interval are half-way to the two neighbouring magnitudes, and belong to it exactly
when the magnitude is even. `Double.shortest` tries grids of one, two, … seventeen significant
digits and takes, on the first grid that meets the interval, the point of it nearest to the
number, the upper one of two that are equally near.
-/

namespace TypedPhp

/-- The positive decimal `0.d₁d₂… * 10 ^ point`, where `d₁` and the last digit are not zero. -/
structure Scientific where
  digits : List Char
  point : Int
deriving DecidableEq, Repr

/-- The decimal `n * 10 ^ shift`, trailing zeros moved into the power. -/
def Scientific.ofNat (n : Nat) (shift : Int) : Scientific :=
  let all := Nat.toDigits 10 n
  ⟨(all.reverse.dropWhile (· = '0')).reverse, shift + all.length⟩

namespace Double

/-- The least `k` from `start` on, up to `start + steps`, with `unitsPerOne ≤ u * 10 ^ k`. -/
def leadingZeros (u : Nat) : (steps start : Nat) → Nat
  | 0, k => k
  | steps + 1, k => if unitsPerOne ≤ u * Nat.pow 10 k then k else leadingZeros u steps (k + 1)

/-- The power `p` of ten with `10 ^ (p - 1) ≤ x < 10 ^ p`, where `x` is `u` units. -/
def decimalPoint (u : Nat) : Int :=
  if unitsPerOne ≤ u then (Nat.toDigits 10 (u / unitsPerOne)).length
  else 1 - (leadingZeros u 330 0 : Int)

/-- The point nearest to the number of magnitude `m` on the grid of step `10 ^ step`, among the
two neighbours of the number that read back as it, if one does. -/
def onGrid (m : Nat) (step : Int) : Option Nat :=
  let u := units m
  let scale := Nat.pow 10 (-step).toNat
  let den := Nat.pow 10 step.toNat * unitsPerOne
  let num := u * scale
  let low := (units (m - 1) + u) * scale
  let high := (u + units (m + 1)) * scale
  let below := num / den
  let closed := m % 2 = 0
  let lowerFits := if closed then low ≤ 2 * (below * den) else low < 2 * (below * den)
  let upperFits :=
    if closed then 2 * ((below + 1) * den) ≤ high else 2 * ((below + 1) * den) < high
  let lowerIsNearer := 2 * num < (2 * below + 1) * den
  if lowerFits ∧ (lowerIsNearer ∨ ¬ upperFits) then some below
  else if upperFits then some (below + 1)
  else none

/-- The first grid of at least `n` significant digits that has a point reading back, among the
next `tries` grids. -/
def firstGrid (m : Nat) (point : Int) : (tries n : Nat) → Scientific
  | 0, n => Scientific.ofNat (units m) (point - n)
  | tries + 1, n =>
    match onGrid m (point - n) with
    | some c => Scientific.ofNat c (point - n)
    | none => firstGrid m point tries (n + 1)

/-- The shortest decimal that reads back as the finite positive magnitude `m`. -/
def shortest (m : Nat) : Scientific := firstGrid m (decimalPoint (units m)) 17 1

end Double

end TypedPhp
