import TypedPhp.Literal
import TypedPhp.Random.Sampling

set_option autoImplicit false

/-!
# Random literals

Values of each scalar kind. With a given chance a value comes from a pool of edge cases,
otherwise it is put together. The pools hold no integer without a literal form, and no string
that is put together holds a dollar sign.
-/

namespace TypedPhp

namespace EdgeCases

/-- Integers at the ends of the common widths. The least integer is left out: it can only be
written as the negation of a number that is out of range. -/
def ints : List Int64 :=
  [0, -1, 1, 0xff, -0xff, 9284128, 128412288, -9284120, 2147483647, -2147483648, 4294967295,
    9223372036854775807, -9223372036854775807]

/-- Both zeros, whole and broken numbers, the ends of the range, a NaN and the infinities. -/
def floats : List Double :=
  [⟨0x0000000000000000⟩, ⟨0x8000000000000000⟩, ⟨0xbff0000000000000⟩, ⟨0x4004147ae147ae14⟩,
    ⟨0x4074980000000000⟩, ⟨0x3f3c2e33eff19503⟩, ⟨0x40d56f12c47a17f4⟩, ⟨0xc0a15dfff2e48e8a⟩,
    ⟨0x40a635468db8bac7⟩, ⟨0x430c6bf526340000⟩, ⟨0x0000000000000001⟩, ⟨0x7fefffffffffffff⟩,
    .nan, .infinity, ⟨0xfff0000000000000⟩]

/-- Separators, quotes, escapes, numerals, a control character, a byte that encodes nothing,
text outside the basic range, and fragments of markup. -/
def texts : List (List UInt8) :=
  [[], [0x2c], [0x20], [0x60, 0x60], [0x27, 0x27], [0x22], [0x5c], "0x1f".toUTF8.toList,
    "000".toUTF8.toList, "24".toUTF8.toList, "-123".toUTF8.toList, "1e3".toUTF8.toList,
    [0x00], [0x09], [0xff], "simple string".toUTF8.toList, "ハロー・ワールド".toUTF8.toList,
    "1\n2".toUTF8.toList, "<div/>".toUTF8.toList, "<h1>ok</h1>".toUTF8.toList,
    "<p>".toUTF8.toList, "</p>".toUTF8.toList, "\x7b\"key\":1\x7d".toUTF8.toList,
    "[\"val\"]".toUTF8.toList]

end EdgeCases

namespace Draw

variable {ρ : Type} [WordSource ρ]

/-- One half. -/
def half : Double := ⟨0x3fe0000000000000⟩

def boolValue : Draw ρ Bool := chance half

/-- An integer: an edge case with chance `p`, else one of up to five digits of either sign, or
a larger positive one. -/
def intValue (p : Double) : Draw ρ Int64 := do
  if ← chance p then pick EdgeCases.ints
  else
    match ← int false 0 4 with
    | 0 | 1 => return Int64.ofInt (← int true 0 65534)
    | 2 | 3 => return -Int64.ofInt (← int true 0 65534)
    | _ => return Int64.ofInt (← int true 100000 19438420511)

/-- The numerator of a number in `[0, 1)` over `2 ^ 53`. -/
def unit : Draw ρ Nat := do
  let w ← word64
  return w / 2048

/-- A float: an edge case with chance `p`, else a number in `[0, 1)`, or the product of one
with a whole number. -/
def floatValue (p : Double) : Draw ρ Double := do
  if ← chance p then pick EdgeCases.floats
  else
    let numerator ← unit
    let scale : Int ←
      match ← int false 0 3 with
      | 0 => pure 1
      | 1 | 2 => int false 0 999
      | _ => int false 0 9999999
    return .ofRatio false (numerator * scale.toNat) (Nat.pow 2 53)

/-- Whether a byte is taken as it is into a string that is put together: a visible character
other than a dollar, or a blank. -/
def isPlainByte (b : Nat) : Bool := (0x20 ≤ b && b ≤ 0x7e) && b != 0x24

/-- A piece of a string: a plain character or an edge case. -/
def stringPiece : Draw ρ (List UInt8) := do
  let b ← int false 0 0x7e
  if isPlainByte b.toNat then return [UInt8.ofNat b.toNat]
  else pick EdgeCases.texts

/-- A string: an edge case with chance `p`, else one to six pieces. -/
def stringValue (p : Double) : Draw ρ (List UInt8) := do
  if ← chance p then pick EdgeCases.texts
  else
    let n ← int false 1 6
    let pieces ← times stringPiece n.toNat
    return pieces.flatten

/-- A literal of a kind. -/
def literalValue (p : Double) : Primitive → Draw ρ Literal
  | .bool => do return .bool (← boolValue)
  | .int => do return .int (← intValue p)
  | .float => do return .float (← floatValue p)
  | .string => do return .string (← stringValue p)

end Draw

end TypedPhp
