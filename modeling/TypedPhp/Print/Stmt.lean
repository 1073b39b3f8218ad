import TypedPhp.Print.Expr

set_option autoImplicit false

/-!
# Text of statements

Statements begin on lines of their own, indented by two blanks for every block around them.
`Print.core` is the text of a statement without its line break and semicolon, which is how a
body follows the head of its `if` or loop.
-/

namespace TypedPhp.Print

/-- What surrounds the text of a statement. -/
structure Layout where
  semicolon : Bool
  newline : Bool
deriving DecidableEq, Repr

namespace Layout

/-- A simple statement. -/
def simple : Layout := ⟨true, true⟩

/-- A statement that ends in a block. -/
def block : Layout := ⟨false, true⟩

/-- The layout of a statement with the given operator. -/
def of : Op → Layout
  | .block | .ifThen | .ifElse | .whileLoop | .switch => block
  | _ => simple

end Layout

/-- A line break and the blanks before a line at the given depth. -/
def lineBreak (indent : Nat) : List Char := '\n' :: List.replicate (2 * indent) ' '

/-- A statement's text with what surrounds it. -/
def Layout.around (layout : Layout) (indent : Nat) (text : List Char) : List Char :=
  (if layout.newline then lineBreak indent else []) ++ text ++
    (if layout.semicolon then [';'] else [])

mutual

/-- The text of a statement without what surrounds it. -/
def core (indent : Nat) : Node → Written
  | .mk op args payload type =>
    match op with
    | .block => do
      let body ← lines (indent + 1) args
      return '\x7b' :: (body ++ lineBreak indent ++ ['\x7d'])
    | .ifThen => do
      let cond ← exprAt args 0
      let body ← coreAt indent args.length 1 args 1
      return "if (".toList ++ cond ++ ") ".toList ++ body
    | .ifElse => do
      let cond ← exprAt args 0
      let body ← coreAt indent args.length 1 args 1
      let otherwise ← coreAt indent args.length 2 args 2
      return "if (".toList ++ cond ++ ") ".toList ++ body ++ " else ".toList ++ otherwise
    | .whileLoop => do
      let cond ← exprAt args 0
      let body ← coreAt indent args.length 1 args 1
      return "while (".toList ++ cond ++ ") ".toList ++ body
    | .doWhile => do
      let body ← coreAt indent args.length 0 args 0
      let cond ← exprAt args 1
      return "do ".toList ++ body ++ " while (".toList ++ cond ++ [')']
    | .switch => do
      let tag ← exprAt args 0
      let body ← cases (indent + 1) true args
      return "switch (".toList ++ tag ++ ") \x7b".toList ++ body ++ lineBreak indent ++ ['\x7d']
    | .returnValue => do
      let value ← exprAt args 0
      return "return ".toList ++ value
    | .returnVoid => return "return".toList
    | .breakJump => return "break".toList
    | .continueJump => return "continue".toList
    | .echo => do
      let values ← commaList (exprEach args)
      return "echo ".toList ++ values
    | .case | .defaultCase => throw (.outsideSwitch op)
    | _ => expr (.mk op args payload type)

/-- The text of the statement `left` places into a list; `length` and `index` tell the whole
list's length and the place in it. -/
def coreAt (indent length index : Nat) : List Node → (left : Nat) → Written
  | [], _ => throw (.indexOutOfBounds length index)
  | n :: _, 0 => core indent n
  | _ :: ns, left + 1 => coreAt indent length index ns left

/-- Statements on lines of their own. -/
def lines (indent : Nat) : List Node → Written
  | [] => return []
  | n :: ns => do
    let text ← core indent n
    let rest ← lines indent ns
    return (Layout.of n.op).around indent text ++ rest

/-- The cases of a switch; the tag at the front of the children is skipped. -/
def cases (indent : Nat) (atTag : Bool) : List Node → Written
  | [] => return []
  | .mk op args _ _ :: ns =>
    if atTag then cases indent false ns
    else do
      let head ←
        match op, args with
        | .case, [] => throw (.indexOutOfBounds 0 0)
        | .case, label :: body => do
          let value ← expr label
          let stmts ← lines (indent + 1) body
          pure (lineBreak indent ++ "case ".toList ++ value ++ ':' :: stmts)
        | .defaultCase, body => do
          let stmts ← lines (indent + 1) body
          pure (lineBreak indent ++ "default:".toList ++ stmts)
        | _, _ => throw (.insideSwitch op)
      let rest ← cases indent false ns
      return head ++ rest

end

/-- The text of a statement with the given layout. -/
def stmt (indent : Nat) (n : Node) (layout : Layout) : Written := do
  let text ← core indent n
  return layout.around indent text

/-- The text of a node: a statement with its own layout, or an expression. -/
def node (n : Node) : Written :=
  if n.op.isStmt then stmt 0 n (Layout.of n.op) else expr n

end TypedPhp.Print
