import TypedPhp.Syntax.Op
import TypedPhp.Ty.Basic

set_option autoImplicit false

/-!
# Faults

Everything that can go wrong while a program is built or written, one constructor per cause,
and the message of each.
-/

namespace TypedPhp

/-- Why an operation has no result. -/
inductive Fault where
  /-- A list of `length` elements was asked for the one at `index`. -/
  | indexOutOfBounds (length index : Nat)
  /-- A uniform draw over no values. -/
  | emptyRange
  /-- A draw with a chance outside the interval from zero to one. -/
  | notAProbability (p : Double)
  /-- A finite source of samples has run dry. -/
  | sequenceEnded
  /-- A loop that waits for a suitable sample has used up its attempts. -/
  | outOfAttempts
  /-- The building of nested expressions or statements needs more calls than the stack holds. -/
  | stackOverflow
  /-- No option of a weighted list has a positive frequency. -/
  | emptyChoiceList
  /-- A literal node carries no literal. -/
  | literalMissing
  /-- A part of an interpolated string is neither a variable nor a string. -/
  | badInterpolatedPart
  /-- The type of a cast has no keyword. -/
  | castWithoutKeyword
  /-- A compound assignment names no operator. -/
  | compoundWithoutOperator
  /-- A statement stands where an expression is needed. -/
  | notAnExpression (op : Op)
  /-- A case or default stands outside a switch. -/
  | outsideSwitch (op : Op)
  /-- A switch holds something other than a case or default. -/
  | insideSwitch (op : Op)
  /-- A node that needs a name has none. -/
  | unnamed (op : Op)
  /-- An operator has no source spelling. -/
  | noToken (op : Op)
  /-- The label of a case does not have a constant value. -/
  | labelNotLiteral
  /-- A frozen symbol table was asked to change. -/
  | frozen
  /-- A symbol table was frozen a second time. -/
  | frozenTwice
  /-- An array lookup in a symbol table that is not frozen yet. -/
  | notFrozen
  | declaredTwice (name : String)
  | undeclared (name : String)
  | definedTwice (name : String)
  /-- A function of that qualified name is registered already. -/
  | addedTwice (name : String)
  | leaveWithoutFrame
  | pushWithoutFrame
  /-- A function was begun while `depth` scope frames were open. -/
  | functionInsideScope (depth : Nat)
  | voidValue
  /-- No value of that type can be written. -/
  | noValue (type : Ty)
  | voidLiteral
  /-- No constant of that type can be written. -/
  | noConstant (type : Ty)
  | noEnumOver (kind : Scalar)
deriving Repr, Inhabited

namespace Fault

/-- The message of a fault. -/
def message : Fault → String
  | indexOutOfBounds n i => s!"index out of bounds: the len is {n} but the index is {i}"
  | emptyRange => "cannot sample empty range"
  | notAProbability p => "p=" ++ String.ofList (p.format .exact) ++ " is outside range [0.0, 1.0]"
  | sequenceEnded => "sequence ended"
  | outOfAttempts => "too many attempts"
  | stackOverflow => "stack overflow"
  | emptyChoiceList => "empty choice list"
  | literalMissing => "literal node without a value"
  | badInterpolatedPart => "bad interpolated part"
  | castWithoutKeyword => "cast to a type without a keyword"
  | compoundWithoutOperator => "compound assignment without an operator"
  | notAnExpression op => op.label ++ " is not an expression"
  | outsideSwitch op => op.label ++ " outside of a switch"
  | insideSwitch op => op.label ++ " inside a switch"
  | unnamed op => op.label ++ " node without a name"
  | noToken op => op.label ++ " has no token"
  | labelNotLiteral => "case label is not a literal"
  | frozen => "adding to a sorted symtab"
  | frozenTwice => "double symtab sorting"
  | notFrozen => "array lookup in an unsorted symtab"
  | declaredTwice name => "class " ++ name ++ " declared twice"
  | undeclared name => "defining undeclared class " ++ name
  | definedTwice name => "class " ++ name ++ " defined twice"
  | addedTwice name => "function " ++ name ++ " added twice"
  | leaveWithoutFrame => "leaving a scope without a frame"
  | pushWithoutFrame => "pushing a var without a frame"
  | functionInsideScope depth =>
    "assertion `left == right` failed: function started inside another scope\n  left: " ++
      toString depth ++ "\n right: 0"
  | voidValue => "unexpected void value"
  | noValue ty => "unexpected " ++ String.ofList ty.text ++ " value"
  | voidLiteral => "no literal of type void"
  | noConstant ty => "no constant value of type " ++ String.ofList ty.text
  | noEnumOver kind => "no enum over " ++ kind.text

end Fault

/-- The element at an index, or the fault of an index that is out of bounds. -/
def elemAt {α : Type} (xs : List α) (i : Nat) : Except Fault α :=
  match xs[i]? with
  | some x => .ok x
  | none => .error (.indexOutOfBounds xs.length i)

end TypedPhp
