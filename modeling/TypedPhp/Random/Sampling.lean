import TypedPhp.Double.Rounding
import TypedPhp.Random.Source

set_option autoImplicit false

/-!
# Sampling

Uniform numbers, chances and weighted choices from random words. A uniform number below `n` is
the high half of the product of a word and `n`; where the low half leaves the answer in doubt,
a second word decides, and no third one is needed. A weighted choice instead draws again until
the low half is out of the doubtful part.
-/

namespace TypedPhp.Draw

variable {ρ : Type} [WordSource ρ]

/-- How many values a word of the given width has. -/
def wordValues (wide : Bool) : Nat := if wide then 0x10000000000000000 else 0x100000000

/-- A word of 64 bits if `wide`, else one of 32 bits. -/
def word (wide : Bool) : Draw ρ Nat := if wide then word64 else word32

/-- A uniform number below `n`, where `n` is at most the number of values of a word. -/
def below (wide : Bool) (n : Nat) : Draw ρ Nat := do
  let size := wordValues wide
  let product := (← word wide) * n
  let high := product / size
  let low := product % size
  if size - n < low then
    let carry := (← word wide) * n / size
    return if size ≤ low + carry then high + 1 else high
  else return high

/-- A uniform whole number from `lo` to `hi`. -/
def int (wide : Bool) (lo hi : Int) : Draw ρ Int :=
  if hi < lo then throw .emptyRange
  else do
    let k ← below wide (hi - lo + 1).toNat
    return lo + k

/-- A uniform count from `lo` to `hi`, drawn from wide words when `hi` needs them. -/
def range (lo hi : Nat) : Draw ρ Nat :=
  if hi < lo then throw .emptyRange
  else do
    let k ← below (wordValues false ≤ hi) (hi - lo + 1)
    return lo + k

/-- A uniform place in a list of the given length. -/
def place (length : Nat) : Draw ρ Nat :=
  match length with
  | 0 => throw .emptyRange
  | n + 1 => range 0 n

/-- A uniform element of a list. -/
def pick {α : Type} (pool : List α) : Draw ρ α := do
  let i ← place pool.length
  lift (elemAt pool i)

/-- Whether an event of chance `p` happens. A certain event draws no word. -/
def chance (p : Double) : Draw ρ Bool :=
  if p.isOne then pure true
  else if p.isProbability then do
    let w ← word64
    return w < p.scaledTo64
  else throw (.notAProbability p)

/-- The first place whose running total of weights exceeds `c`. -/
def placeOfWeight (c : Nat) : List Nat → Nat
  | [] => 0
  | w :: ws => if c < w then 0 else placeOfWeight (c - w) ws + 1

/-- A uniform number below `total` by rejection, in at most the given number of attempts. -/
def belowByRejection (wide : Bool) (total : Nat) : (attempts : Nat) → Draw ρ Nat
  | 0 => throw .outOfAttempts
  | attempts + 1 => do
    let size := wordValues wide
    let product := (← word wide) * total
    if (size - total) % total ≤ product % size then return product / size
    else belowByRejection wide total attempts

/-- A place in a list of weights, each with a chance in proportion to its weight; none, and no
word drawn, if the weights sum up to zero or beyond 64 bits. -/
def weighted (attempts : Nat) (weights : List Nat) : Draw ρ (Option Nat) :=
  let total := weights.foldr (· + ·) 0
  if total = 0 ∨ wordValues true ≤ total then pure none
  else do
    let c ← belowByRejection (wordValues false < total) total attempts
    return some (placeOfWeight c weights)

end TypedPhp.Draw
