import TypedPhp.Ty.Basic

set_option autoImplicit false

/-!
# Order and equality of types

`Ty.compare` orders types by their outermost form and then by their parts, and `Ty.identical`
is strict equality without widening. Both look at the names of classes and functions only and
tell float constants apart by their bits. `Ty.eqv` in turn compares references with their index
and float constants as numbers.
-/

namespace TypedPhp

namespace Ty

/-- The place of a type's outermost form in the order. -/
def formRank : Ty → Nat
  | scalar _ => 0
  | object _ => 1
  | union .. => 2
  | nullable _ => 3
  | array _ => 4
  | tuple _ => 5
  | callable _ => 6
  | enum _ => 7

/-- The name of a type's outermost form. -/
def form : Ty → String
  | scalar _ => "Scalar"
  | object _ => "Class"
  | union .. => "Union"
  | nullable _ => "Nullable"
  | array _ => "Array"
  | tuple _ => "Tuple"
  | callable _ => "Func"
  | enum _ => "Enum"

/-- Order of names, character by character. -/
def compareNames (x y : String) : Ordering := compareOfLessAndEq x y

/-- Order of value lists of one length, by the first difference. -/
def compareValues : List Literal → List Literal → Ordering
  | x :: xs, y :: ys => (x.compare y).then (compareValues xs ys)
  | _, _ => .eq

/-- Order of enums: by the number of values, then by kind, then by the values. -/
def compareEnums (x y : EnumType) : Ordering :=
  ((Ord.compare x.values.length y.values.length).then
    (Ord.compare x.kind.rank y.kind.rank)).then (compareValues x.values y.values)

mutual

/-- The order of types: by form, then by parts; a shorter tuple comes before a longer one. -/
def compare : Ty → Ty → Ordering
  | scalar j, scalar k => Ord.compare j.rank k.rank
  | object c, object d => compareNames c.name d.name
  | union x y, union x' y' => (compare x x').then (compare y y')
  | nullable x, nullable y => compare x y
  | array x, array y => compare x y
  | tuple xs, tuple ys => (Ord.compare xs.length ys.length).then (compareList xs ys)
  | callable f, callable g => compareNames f.name g.name
  | enum e, enum f => compareEnums e f
  | x, y => Ord.compare x.formRank y.formRank

/-- Order of type lists of one length, by the first difference. -/
def compareList : List Ty → List Ty → Ordering
  | x :: xs, y :: ys => (compare x y).then (compareList xs ys)
  | _, _ => .eq

end

/-- Whether one type comes strictly before another. -/
def less (x y : Ty) : Bool := compare x y == .lt

/-- Whether two value lists agree bit by bit. -/
def sameValues : List Literal → List Literal → Bool
  | [], [] => true
  | x :: xs, y :: ys => x.same y && sameValues xs ys
  | _, _ => false

mutual

/-- Strict equality of types: `int` is not `mixed`, and references are equal by name. -/
def identical : Ty → Ty → Bool
  | scalar j, scalar k => j == k
  | object c, object d => c.name == d.name
  | union x y, union x' y' => identical x x' && identical y y'
  | nullable x, nullable y => identical x y
  | array x, array y => identical x y
  | tuple xs, tuple ys => identicalList xs ys
  | callable f, callable g => f.name == g.name
  | enum e, enum f => e.kind == f.kind && sameValues e.values f.values
  | _, _ => false

/-- Strict equality of type lists. -/
def identicalList : List Ty → List Ty → Bool
  | [], [] => true
  | x :: xs, y :: ys => identical x y && identicalList xs ys
  | _, _ => false

end

/-- Whether two value lists agree as values. -/
def eqvValues : List Literal → List Literal → Bool
  | [], [] => true
  | x :: xs, y :: ys => x.eqv y && eqvValues xs ys
  | _, _ => false

mutual

/-- Equality part by part: references with their index, float constants as numbers. -/
def eqv : Ty → Ty → Bool
  | scalar j, scalar k => j == k
  | object c, object d => c == d
  | union x y, union x' y' => eqv x x' && eqv y y'
  | nullable x, nullable y => eqv x y
  | array x, array y => eqv x y
  | tuple xs, tuple ys => eqvList xs ys
  | callable f, callable g => f == g
  | enum e, enum f => e.kind == f.kind && eqvValues e.values f.values
  | _, _ => false

/-- Equality part by part of type lists. -/
def eqvList : List Ty → List Ty → Bool
  | [], [] => true
  | x :: xs, y :: ys => eqv x y && eqvList xs ys
  | _, _ => false

end

end Ty

end TypedPhp
