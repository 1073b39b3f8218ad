import TypedPhp.Generate.Choice
import TypedPhp.Literal
import TypedPhp.Syntax.Op

set_option autoImplicit false

/-!
# Forms of expressions

The forms that an expression of a category can take, with their frequencies. A form that needs
a variable, a function or a field may not be available; a fallback is then tried, and after it
a literal.
-/

namespace TypedPhp

/-- The form of an expression. -/
inductive ExprForm where
  | compare (op : Op)
  | spaceship
  | logical (op : Op)
  | not
  | var (kind : Primitive)
  | literal (kind : Primitive)
  | call (kind : Primitive)
  | field (kind : Primitive)
  | tupleElem (kind : Primitive)
  | nullCoalesce (kind : Primitive)
  | ternary (kind : Primitive)
  | cast (kind : Primitive)
  | intArith (op : Op)
  | intBits (op : Op)
  | shift (op : Op)
  | intUnary (op : Op)
  | intExp
  | safeDiv (kind : Primitive)
  | safeMod
  | floatArith (op : Op)
  | concat
  | interpolated
  | stringIndex
deriving DecidableEq, Repr

/-- What an expression is for: a condition, or a value of a kind. -/
inductive Category where
  | cond
  | value (kind : Primitive)
deriving DecidableEq, Repr

namespace Category

/-- The kind of the expressions of a category. -/
def kind : Category → Primitive
  | cond => .bool
  | value k => k

end Category

namespace ExprForm

/-- An option without fallback. -/
def always (frequency : UInt16) (form : ExprForm) : Choice ExprForm := ⟨frequency, form, none⟩

/-- An option with a fallback. -/
def orElse (frequency : UInt16) (form fallback : ExprForm) : Choice ExprForm :=
  ⟨frequency, form, some fallback⟩

def condForms : List (Choice ExprForm) :=
  [ always 3 (compare .equal),
    always 3 (compare .identical),
    always 1 (compare .notEqual),
    always 2 (compare .less),
    always 1 (compare .greaterOrEqual),
    always 4 (logical .and),
    always 4 (logical .or),
    always 4 not,
    orElse 5 (var .bool) (literal .bool),
    always 6 (call .bool),
    always 1 (field .bool),
    always 1 (literal .bool) ]

def boolForms : List (Choice ExprForm) :=
  [ always 1 (compare .equal),
    always 1 (compare .identical),
    always 1 (compare .notIdentical),
    always 1 (compare .greater),
    always 1 (compare .lessOrEqual),
    always 3 (logical .and),
    always 3 (logical .or),
    always 1 (logical .andWord),
    always 1 (logical .orWord),
    always 1 (logical .xorWord),
    always 4 not,
    orElse 6 (var .bool) (literal .bool),
    always 3 (literal .bool),
    always 4 (call .bool),
    always 1 (field .bool),
    always 1 (tupleElem .bool),
    always 1 (nullCoalesce .bool),
    always 1 (cast .bool) ]

def intForms : List (Choice ExprForm) :=
  [ always 1 (ternary .int),
    always 2 (intArith .add),
    always 2 (intArith .sub),
    always 1 (intArith .mul),
    always 1 (intBits .bitAnd),
    always 1 (intBits .bitOr),
    always 1 (intBits .bitXor),
    always 1 (shift .shiftLeft),
    always 1 (shift .shiftRight),
    always 1 intExp,
    always 1 (safeDiv .int),
    always 1 safeMod,
    always 2 (intUnary .negation),
    always 1 (intUnary .bitNot),
    always 1 (intUnary .unaryPlus),
    always 1 spaceship,
    always 2 (cast .int),
    always 7 (call .int),
    always 4 (literal .int),
    orElse 6 (var .int) (literal .int),
    always 2 (field .int),
    always 1 (tupleElem .int),
    always 1 (nullCoalesce .int) ]

def floatForms : List (Choice ExprForm) :=
  [ always 1 (ternary .float),
    always 2 (floatArith .add),
    always 2 (floatArith .sub),
    always 1 (floatArith .mul),
    always 1 (safeDiv .float),
    always 1 (cast .float),
    always 5 (call .float),
    orElse 6 (var .float) (literal .float),
    always 5 (literal .float),
    always 2 (field .float),
    always 1 (tupleElem .float),
    always 1 (nullCoalesce .float) ]

def stringForms : List (Choice ExprForm) :=
  [ always 1 (ternary .string),
    always 2 (cast .string),
    always 5 (call .string),
    always 4 concat,
    always 5 (literal .string),
    always 5 interpolated,
    orElse 6 (var .string) (literal .string),
    orElse 2 stringIndex interpolated,
    always 2 (field .string),
    always 1 (tupleElem .string),
    always 1 (nullCoalesce .string) ]

/-- The forms of a category. -/
def formsOf : Category → List (Choice ExprForm)
  | .cond => condForms
  | .value .bool => boolForms
  | .value .int => intForms
  | .value .float => floatForms
  | .value .string => stringForms

/-- The weighted list of the forms of a category. -/
def ofCategory (c : Category) : Except Fault (ChoiceList ExprForm) :=
  ChoiceList.ofOptions (formsOf c)

end ExprForm

end TypedPhp
