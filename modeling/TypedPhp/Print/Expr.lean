import TypedPhp.Syntax.Node

set_option autoImplicit false

/-!
# Text of expressions

The text of a node is put together from the texts of its children by `Print.assemble`, and no
parentheses are added: they come from the tree. Children are written in source order, and the
first fault decides.
-/

namespace TypedPhp.Print

/-- Source text, or the fault that stopped the writing. -/
abbrev Written := Except Fault (List Char)

/-- The text of the child at an index. -/
def child (parts : List Written) (i : Nat) : Written := do
  let part ← elemAt parts i
  part

/-- Texts separated by commas. -/
def commaList : List Written → Written
  | [] => return []
  | [x] => x
  | x :: xs => do
    let head ← x
    let rest ← commaList xs
    return head ++ ", ".toList ++ rest

/-- The name that a node needs. -/
def needName (n : Node) : Written :=
  match n.ident? with
  | some s => return s.toList
  | none => throw (.unnamed n.op)

/-- The source spelling that an operator needs. -/
def needToken (op : Op) : Written :=
  match op.token? with
  | some t => return t.toList
  | none => throw (.noToken op)

/-- The parts of an interpolated string: variables in braces, escaped text otherwise. -/
def interpolation : List Node → List Written → Written
  | n :: ns, part :: parts => do
    let head ←
      if n.op = .var then do
        let v ← part
        pure ('\x7b' :: (v ++ ['\x7d']))
      else
        match n.literal? with
        | some (.string bytes) => pure (Text.escape bytes)
        | _ => throw .badInterpolatedPart
    let rest ← interpolation ns parts
    return head ++ rest
  | _, _ => return []

/-- A sign before its operand. A blank keeps two signs apart. -/
def signed (sign operand : List Char) : List Char :=
  if (sign = ['-'] ∨ sign = ['+']) ∧ (operand.head? = some '-' ∨ operand.head? = some '+') then
    sign ++ ' ' :: operand
  else sign ++ operand

/-- The text of a node, from the texts of its children. -/
def assemble (n : Node) (parts : List Written) : Written :=
  match n.op with
  | .parens => do
    let x ← child parts 0
    return '(' :: (x ++ [')'])
  | .null => return "null".toList
  | .boolLit | .intLit | .floatLit | .stringLit =>
    match n.literal? with
    | some l => return l.text
    | none => throw .literalMissing
  | .interpolated => do
    let body ← interpolation n.args parts
    return '"' :: (body ++ ['"'])
  | .arrayLit => do
    let elems ← commaList parts
    return '[' :: (elems ++ [']'])
  | .tupleLit => do
    let elems ← commaList parts
    return "tuple(".toList ++ elems ++ [')']
  | .var => do
    let s ← needName n
    return '$' :: s
  | .name => needName n
  | .new => do
    let s ← needName n
    return "new ".toList ++ s ++ "()".toList
  | .prop => do
    let receiver ← child parts 0
    let s ← needName n
    return receiver ++ "->".toList ++ s
  | .methodCall => do
    let receiver ← child parts 0
    let s ← needName n
    let args ← commaList (parts.drop 1)
    return receiver ++ "->".toList ++ s ++ '(' :: (args ++ [')'])
  | .call => do
    let callee ← child parts 0
    let args ← commaList (parts.drop 1)
    return callee ++ '(' :: (args ++ [')'])
  | .index => do
    let x ← child parts 0
    let key ← child parts 1
    return x ++ '[' :: (key ++ [']'])
  | .cast =>
    match n.type.bind Ty.castKeyword? with
    | none => throw .castWithoutKeyword
    | some keyword => do
      let x ← child parts 0
      return '(' :: (keyword.toList ++ ')' :: x)
  | .ternary => do
    let cond ← child parts 0
    let x ← child parts 1
    let y ← child parts 2
    return cond ++ " ? ".toList ++ x ++ " : ".toList ++ y
  | .assign => do
    let lhs ← child parts 0
    let rhs ← child parts 1
    return lhs ++ " = ".toList ++ rhs
  | .assignModify =>
    match n.payload with
    | some (.op op) => do
      let lhs ← child parts 0
      let token ← needToken op
      let rhs ← child parts 1
      return lhs ++ ' ' :: (token ++ "= ".toList ++ rhs)
    | _ => throw .compoundWithoutOperator
  | .postInc | .postDec => do
    let x ← child parts 0
    let token ← needToken n.op
    return x ++ token
  | .not | .negation | .unaryPlus | .bitNot | .preInc | .preDec => do
    let sign ← needToken n.op
    let x ← child parts 0
    return signed sign x
  | op =>
    if op.isBinary then do
      let x ← child parts 0
      let token ← needToken op
      let y ← child parts 1
      return x ++ ' ' :: (token ++ ' ' :: y)
    else throw (.notAnExpression op)

mutual

/-- The text of an expression. -/
def expr : Node → Written
  | .mk op args payload type => assemble (.mk op args payload type) (exprEach args)

/-- The texts of several expressions. -/
def exprEach : List Node → List Written
  | [] => []
  | n :: ns => expr n :: exprEach ns

end

/-- The text of the child at an index. -/
def exprAt (args : List Node) (i : Nat) : Written := do
  let n ← elemAt args i
  expr n

end TypedPhp.Print
