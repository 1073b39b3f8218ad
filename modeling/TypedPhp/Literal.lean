import TypedPhp.Double.Text
import TypedPhp.Text.Quoted

set_option autoImplicit false

/-!
# Scalar kinds and literals

A literal is a constant of one of the four kinds that have constants. Two equalities matter:
`Literal.same` tells floats apart by their bits, and `Literal.eqv` compares them as numbers, so
that a NaN is not even equal to itself.
-/

namespace TypedPhp

/-- The scalar kinds, in the order in which types are sorted. -/
inductive Scalar where
  | void
  | bool
  | int
  | float
  | string
  | mixed
deriving DecidableEq, Repr, Inhabited

namespace Scalar

/-- The source spelling of a kind. -/
def text : Scalar → String
  | void => "void"
  | bool => "bool"
  | int => "int"
  | float => "float"
  | string => "string"
  | mixed => "mixed"

/-- The place of a kind in the order of kinds. -/
def rank : Scalar → Nat
  | void => 0
  | bool => 1
  | int => 2
  | float => 3
  | string => 4
  | mixed => 5

end Scalar

/-- The scalar kinds that have literals. -/
inductive Primitive where
  | bool
  | int
  | float
  | string
deriving DecidableEq, Repr, Inhabited

namespace Primitive

/-- A primitive kind as a scalar kind. -/
def scalar : Primitive → Scalar
  | bool => .bool
  | int => .int
  | float => .float
  | string => .string

def all : List Primitive := [bool, int, float, string]

end Primitive

/-- A constant scalar value. Strings are raw bytes and need not encode characters. -/
inductive Literal where
  | bool (value : Bool)
  | int (value : Int64)
  | float (value : Double)
  | string (bytes : List UInt8)
deriving DecidableEq, Repr, Inhabited

namespace Literal

/-- The kind of a literal. -/
def kind : Literal → Scalar
  | bool _ => .bool
  | int _ => .int
  | float _ => .float
  | string _ => .string

/-- Equality bit by bit: a NaN is itself, and the two zeros differ. -/
def same : Literal → Literal → Bool
  | bool x, bool y => x == y
  | int x, int y => x == y
  | float x, float y => x.bits == y.bits
  | string x, string y => x == y
  | _, _ => false

/-- Two literals are the same exactly if they are equal. -/
theorem same_iff {l m : Literal} : l.same m = true ↔ l = m := by
  cases l <;> cases m <;> try simp [same]
  -- What is left are two floats, which are their bits.
  case float.float x y =>
    obtain ⟨x⟩ := x
    obtain ⟨y⟩ := y
    simp

/-- Equality of values: floats are compared as numbers. -/
def eqv : Literal → Literal → Bool
  | bool x, bool y => x == y
  | int x, int y => x == y
  | float x, float y => x.numEq y
  | string x, string y => x == y
  | _, _ => false

/-- Lexicographic order of byte strings. -/
def compareBytes : List UInt8 → List UInt8 → Ordering
  | [], [] => .eq
  | [], _ :: _ => .lt
  | _ :: _, [] => .gt
  | x :: xs, y :: ys => (compare x.toNat y.toNat).then (compareBytes xs ys)

/-- The order of literals: by kind, then by value, floats by the total order of their bits. -/
def compare : Literal → Literal → Ordering
  | bool x, bool y => Ord.compare x.toNat y.toNat
  | int x, int y => Ord.compare x.toInt y.toInt
  | float x, float y => x.totalCompare y
  | string x, string y => compareBytes x y
  | x, y => Ord.compare x.kind.rank y.kind.rank

/-- The source text of a literal. -/
def text : Literal → List Char
  | bool true => "true".toList
  | bool false => "false".toList
  | int v => (toString v.toInt).toList
  | float x => x.format .literal
  | string bytes => Text.quote bytes

end Literal

end TypedPhp
