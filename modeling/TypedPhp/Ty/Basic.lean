import TypedPhp.Literal

set_option autoImplicit false

/-!
# Types

The static types of generated programs. Classes and functions are named, not copied: a
reference carries the index under which the symbol table holds the definition, and its name.
-/

namespace TypedPhp

/-- A class, by its index in the symbol table and its name. -/
structure ClassRef where
  id : Nat
  name : String
deriving DecidableEq, Repr, Inhabited

/-- A function, by its index in the symbol table and its name. -/
structure FuncRef where
  id : Nat
  name : String
deriving DecidableEq, Repr, Inhabited

/-- A closed set of values of one scalar kind. -/
structure EnumType where
  kind : Scalar
  values : List Literal
deriving DecidableEq, Repr, Inhabited

/-- A static type. -/
inductive Ty where
  | scalar (kind : Scalar)
  | object (ref : ClassRef)
  | union (left right : Ty)
  | nullable (inner : Ty)
  | array (elem : Ty)
  | tuple (elems : List Ty)
  | callable (ref : FuncRef)
  | enum (type : EnumType)
deriving Repr, Inhabited

namespace Ty

abbrev void : Ty := scalar .void
abbrev bool : Ty := scalar .bool
abbrev int : Ty := scalar .int
abbrev float : Ty := scalar .float
abbrev string : Ty := scalar .string
abbrev mixed : Ty := scalar .mixed

/-- The kind of a scalar type. -/
def scalarKind? : Ty → Option Scalar
  | scalar k => some k
  | _ => none

def isVoid : Ty → Bool
  | scalar .void => true
  | _ => false

/-! ## Text -/

/-- Whether a nullable type over this one is written with a leading question mark. -/
def takesQuestionMark : Ty → Bool
  | scalar _ | object _ | enum _ => true
  | _ => false

/-- Whether this type is written in parentheses as the element of an array. -/
def needsParens : Ty → Bool
  | union .. | nullable _ => true
  | _ => false

mutual

/-- The text of a type. An enum is written as the kind of its values. -/
def text : Ty → List Char
  | scalar k => k.text.toList
  | object c => c.name.toList
  | union x y => x.text ++ '|' :: y.text
  | nullable x => if x.takesQuestionMark then '?' :: x.text else x.text ++ "|null".toList
  | array e =>
    if e.needsParens then '(' :: (e.text ++ ")[]".toList) else e.text ++ "[]".toList
  | tuple es => "tuple(".toList ++ textList es ++ [')']
  | callable _ => "callable".toList
  | enum e => e.kind.text.toList

/-- The texts of several types, separated by commas. -/
def textList : List Ty → List Char
  | [] => []
  | [t] => t.text
  | t :: ts => t.text ++ ", ".toList ++ textList ts

end

/-! ## What a type allows -/

/-- The keyword of a cast to a scalar kind. -/
def scalarCast? : Scalar → Option String
  | .bool => some "bool"
  | .int => some "int"
  | .float => some "float"
  | .string => some "string"
  | _ => none

/-- The keyword of a cast to this type, if there is one. -/
def castKeyword? : Ty → Option String
  | scalar k => scalarCast? k
  | array _ => some "array"
  | enum e => scalarCast? e.kind
  | _ => none

/-- Whether a value of this type can be written as a constant. -/
def isConstInitializable : Ty → Bool
  | scalar k => k != .void
  | enum _ => true
  | array e => e.isConstInitializable
  | nullable x => x.isConstInitializable
  | union x y => x.isConstInitializable && y.isConstInitializable
  | object _ | tuple _ | callable _ => false

/-- Whether a value of this type is printed alike by both engines. -/
def canDump : Ty → Bool
  | scalar k => k != .void
  | enum _ => true
  | array e => e.canDump
  | nullable x => x.canDump
  | _ => false

end Ty

end TypedPhp
