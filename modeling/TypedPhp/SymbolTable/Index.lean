import TypedPhp.Ty.Order

set_option autoImplicit false

/-!
# Index by type

An index finds what was registered under a scalar or an array type. Array entries are looked
up by their element type in a list that `TypeIndex.freeze` puts in order; the sort is stable,
so the entries of one type stay in the order in which they came.
-/

namespace TypedPhp

/-- Entries by scalar kind and by array element type. -/
structure TypeIndex (α : Type) where
  scalars : List (Scalar × α)
  arrays : List (Ty × α)
deriving Repr

namespace TypeIndex

variable {α : Type}

def empty : TypeIndex α := ⟨[], []⟩

/-- Registers an entry under a type. Only `bool`, `int`, `float`, `string`, `void` and the
array types are kept. -/
def insert (i : TypeIndex α) (t : Ty) (entry : α) : TypeIndex α :=
  match t with
  | .scalar .mixed => i
  | .scalar k => { i with scalars := i.scalars ++ [(k, entry)] }
  | .array elem => { i with arrays := i.arrays ++ [(elem, entry)] }
  | _ => i

/-- Puts the array entries in the order of their element types. -/
def freeze (i : TypeIndex α) : TypeIndex α :=
  { i with arrays := i.arrays.mergeSort fun x y => (x.1.compare y.1).isLE }

/-- The entries under an element type, from a list in order. -/
def equalRange (elem : Ty) (entries : List (Ty × α)) : List α :=
  let fromFirst := entries.dropWhile fun x => x.1.less elem
  (fromFirst.takeWhile fun x => !elem.less x.1).map (·.2)

/-- The entries under a type; those under an array type are found once the index is frozen. -/
def find (i : TypeIndex α) (t : Ty) : List α :=
  match t with
  | .scalar k => (i.scalars.filter (·.1 == k)).map (·.2)
  | .array elem => equalRange elem i.arrays
  | _ => []

end TypeIndex

end TypedPhp
