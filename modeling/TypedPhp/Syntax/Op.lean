set_option autoImplicit false

/-!
# Operators

Every node of a syntax tree has one of these operators. They fall into statements and
expressions; the names in `Op.label` are those that messages use.
-/

namespace TypedPhp

/-- What a node of a syntax tree is. -/
inductive Op where
  | breakJump
  | continueJump
  | ifThen
  | ifElse
  | whileLoop
  | doWhile
  | block
  | returnValue
  | returnVoid
  | echo
  | switch
  | case
  | defaultCase
  | parens
  | assign
  | assignModify
  | null
  | boolLit
  | intLit
  | floatLit
  | stringLit
  | interpolated
  | arrayLit
  | tupleLit
  | var
  | name
  | new
  | prop
  | methodCall
  | index
  | call
  | cast
  | ternary
  | nullCoalesce
  | not
  | negation
  | unaryPlus
  | bitNot
  | preInc
  | preDec
  | postInc
  | postDec
  | concat
  | add
  | sub
  | mul
  | div
  | mod
  | exp
  | and
  | andWord
  | or
  | orWord
  | xorWord
  | bitAnd
  | bitOr
  | bitXor
  | shiftLeft
  | shiftRight
  | equal
  | identical
  | notEqual
  | notIdentical
  | less
  | lessOrEqual
  | greater
  | greaterOrEqual
  | spaceship
deriving DecidableEq, Repr, Inhabited

namespace Op

/-- The name of an operator in messages. -/
def label : Op → String
  | breakJump => "Break"
  | continueJump => "Continue"
  | ifThen => "If"
  | ifElse => "IfElse"
  | whileLoop => "While"
  | doWhile => "DoWhile"
  | block => "Block"
  | returnValue => "Return"
  | returnVoid => "ReturnVoid"
  | echo => "Echo"
  | switch => "Switch"
  | case => "Case"
  | defaultCase => "Default"
  | parens => "Parens"
  | assign => "Assign"
  | assignModify => "AssignModify"
  | null => "Null"
  | boolLit => "BoolLit"
  | intLit => "IntLit"
  | floatLit => "FloatLit"
  | stringLit => "StringLit"
  | interpolated => "InterpolatedString"
  | arrayLit => "ArrayLit"
  | tupleLit => "TupleLit"
  | var => "Var"
  | name => "Name"
  | new => "New"
  | prop => "Prop"
  | methodCall => "MethodCall"
  | index => "Index"
  | call => "Call"
  | cast => "Cast"
  | ternary => "Ternary"
  | nullCoalesce => "NullCoalesce"
  | not => "Not"
  | negation => "Negation"
  | unaryPlus => "UnaryPlus"
  | bitNot => "BitNot"
  | preInc => "PreInc"
  | preDec => "PreDec"
  | postInc => "PostInc"
  | postDec => "PostDec"
  | concat => "Concat"
  | add => "Add"
  | sub => "Sub"
  | mul => "Mul"
  | div => "Div"
  | mod => "Mod"
  | exp => "Exp"
  | and => "And"
  | andWord => "AndWord"
  | or => "Or"
  | orWord => "OrWord"
  | xorWord => "XorWord"
  | bitAnd => "BitAnd"
  | bitOr => "BitOr"
  | bitXor => "BitXor"
  | shiftLeft => "ShiftLeft"
  | shiftRight => "ShiftRight"
  | equal => "Equal2"
  | identical => "Equal3"
  | notEqual => "NotEqual2"
  | notIdentical => "NotEqual3"
  | less => "Less"
  | lessOrEqual => "LessOrEqual"
  | greater => "Greater"
  | greaterOrEqual => "GreaterOrEqual"
  | spaceship => "Spaceship"

/-- Every operator, statements first. -/
def all : List Op :=
  [breakJump, continueJump, ifThen, ifElse, whileLoop, doWhile, block, returnValue, returnVoid,
   echo, switch, case, defaultCase, parens, assign, assignModify, null, boolLit, intLit, floatLit,
   stringLit, interpolated, arrayLit, tupleLit, var, name, new, prop, methodCall, index, call,
   cast, ternary, nullCoalesce, not, negation, unaryPlus, bitNot, preInc, preDec, postInc,
   postDec, concat, add, sub, mul, div, mod, exp, and, andWord, or, orWord, xorWord, bitAnd,
   bitOr, bitXor, shiftLeft, shiftRight, equal, identical, notEqual, notIdentical, less,
   lessOrEqual, greater, greaterOrEqual, spaceship]

/-- The operator of a given name. -/
def ofName? (s : String) : Option Op := all.find? (·.label == s)

/-- Whether a node with this operator is a statement by itself. -/
def isStmt : Op → Bool
  | breakJump | continueJump | ifThen | ifElse | whileLoop | doWhile | block | returnValue
  | returnVoid | echo | switch | case | defaultCase => true
  | _ => false

/-- Whether a node with this operator is an infix operator between two operands. Assignment is
not counted. -/
def isBinary : Op → Bool
  | concat | add | sub | mul | div | mod | exp | and | andWord | or | orWord | xorWord
  | bitAnd | bitOr | bitXor | shiftLeft | shiftRight | equal | identical | notEqual
  | notIdentical | less | lessOrEqual | greater | greaterOrEqual | spaceship
  | nullCoalesce => true
  | _ => false

/-- The source spelling of a unary or binary operator. -/
def token? : Op → Option String
  | assign => some "="
  | nullCoalesce => some "??"
  | not => some "!"
  | negation => some "-"
  | unaryPlus => some "+"
  | bitNot => some "~"
  | preInc => some "++"
  | preDec => some "--"
  | postInc => some "++"
  | postDec => some "--"
  | concat => some "."
  | add => some "+"
  | sub => some "-"
  | mul => some "*"
  | div => some "/"
  | mod => some "%"
  | exp => some "**"
  | and => some "&&"
  | andWord => some "and"
  | or => some "||"
  | orWord => some "or"
  | xorWord => some "xor"
  | bitAnd => some "&"
  | bitOr => some "|"
  | bitXor => some "^"
  | shiftLeft => some "<<"
  | shiftRight => some ">>"
  | equal => some "=="
  | identical => some "==="
  | notEqual => some "!="
  | notIdentical => some "!=="
  | less => some "<"
  | lessOrEqual => some "<="
  | greater => some ">"
  | greaterOrEqual => some ">="
  | spaceship => some "<=>"
  | _ => none

/-- Whether control never passes a statement with this operator. -/
def isJump : Op → Bool
  | breakJump | continueJump | returnValue | returnVoid => true
  | _ => false

end Op

end TypedPhp
