import TypedPhp.Proofs.Read.Token
import TypedPhp.Syntax.Op

set_option autoImplicit false

/-!
# Reading expressions

`Read.read` reads the text of an expression as a tree. Which operators take which operands is
decided by the table of the language: the words `or`, `xor` and `and` bind least, then the ternary
operator, `??`, the logical and bitwise operators, comparisons, concatenation, shifts, sums,
products, the operators that stand before their operand, and most of all `**`. Operators of one
level group to the left or to the right, or do not stand next to each other at all.

The reader is a descent by levels. Its fuel counts the calls that are open, so four times as much as
there are tokens is enough for every expression. Assignments are not read: as parts of an expression
they would need a rule of their own on the left.
-/

namespace TypedPhp.Read

/-! ## Trees -/

/-- What a node of a tree carries besides its children. A float is kept as it is written. -/
inductive Leaf where
  | name (s : String)
  | bool (value : Bool)
  | int (n : Nat)
  | float (text : List Char)
  | string (parts : List StringPart)
  | cast (keyword : String)
deriving DecidableEq, Repr, Inhabited

/-- A tree that is read. -/
inductive Term where
  | mk (op : Op) (args : List Term) (leaf : Option Leaf)
deriving Repr, Inhabited

namespace Term

/-- A tree that only has children. -/
def ofArgs (op : Op) (args : List Term) : Term := mk op args none

/-- A tree without children. -/
def atom (op : Op) (leaf : Leaf) : Term := mk op [] (some leaf)

/-- Whether a step can be taken on a tree: it stands for a place that holds a value. -/
def isPlace : Term → Bool
  | mk op _ _ => op = .var || op = .prop || op = .index

end Term

/-! ## Table of operators -/

/-- How operators of one level group. -/
inductive Grouping where
  | left
  | right
  | none
deriving DecidableEq, Repr, Inhabited

/-- An infix operator. -/
structure Infix where
  op : Op
  level : Nat
  grouping : Grouping
deriving DecidableEq, Repr, Inhabited

namespace Infix

/-- The level of the operand on the right. -/
def right (i : Infix) : Nat := if i.grouping = .right then i.level else i.level + 1

/-- The level that may not follow. -/
def barred (i : Infix) : Option Nat := if i.grouping = .none then some i.level else Option.none

end Infix

/-- The infix operators that are words. -/
def infixWords : List (String × Infix) :=
  [("or", ⟨.orWord, 1, .left⟩), ("xor", ⟨.xorWord, 2, .left⟩), ("and", ⟨.andWord, 3, .left⟩)]

/-- The other infix operators, and the first symbol of the ternary one. -/
def infixSymbols : List (String × Infix) :=
  [("?", ⟨.ternary, 5, .none⟩), ("??", ⟨.nullCoalesce, 6, .right⟩), ("||", ⟨.or, 7, .left⟩),
   ("&&", ⟨.and, 8, .left⟩), ("|", ⟨.bitOr, 9, .left⟩), ("^", ⟨.bitXor, 10, .left⟩),
   ("&", ⟨.bitAnd, 11, .left⟩), ("==", ⟨.equal, 12, .none⟩), ("!=", ⟨.notEqual, 12, .none⟩),
   ("<>", ⟨.notEqual, 12, .none⟩), ("===", ⟨.identical, 12, .none⟩),
   ("!==", ⟨.notIdentical, 12, .none⟩), ("<=>", ⟨.spaceship, 12, .none⟩), ("<", ⟨.less, 13, .none⟩),
   ("<=", ⟨.lessOrEqual, 13, .none⟩), (">", ⟨.greater, 13, .none⟩),
   (">=", ⟨.greaterOrEqual, 13, .none⟩), (".", ⟨.concat, 14, .left⟩),
   ("<<", ⟨.shiftLeft, 15, .left⟩), (">>", ⟨.shiftRight, 15, .left⟩), ("+", ⟨.add, 16, .left⟩),
   ("-", ⟨.sub, 16, .left⟩), ("*", ⟨.mul, 17, .left⟩), ("/", ⟨.div, 17, .left⟩),
   ("%", ⟨.mod, 17, .left⟩), ("**", ⟨.exp, 21, .right⟩)]

/-- The infix operator that a token is. -/
def infix? : Token → Option Infix
  | .word s => infixWords.lookup (lower s)
  | .symbol s => infixSymbols.lookup s
  | _ => none

/-- An operator before its operand, with the level of that. -/
structure Prefix where
  op : Op
  level : Nat
  leaf : Option Leaf
deriving DecidableEq, Repr, Inhabited

/-- The operators before their operand. A step takes no infix operator with its operand. -/
def prefixSymbols : List (String × Prefix) :=
  [("!", ⟨.not, 18, none⟩), ("-", ⟨.negation, 20, none⟩), ("+", ⟨.unaryPlus, 20, none⟩),
   ("~", ⟨.bitNot, 20, none⟩), ("++", ⟨.preInc, 22, none⟩), ("--", ⟨.preDec, 22, none⟩)]

/-- The operator before its operand that a token is. -/
def prefix? : Token → Option Prefix
  | .cast keyword => some ⟨.cast, 20, some (.cast keyword)⟩
  | .symbol s => prefixSymbols.lookup s
  | _ => none

/-- An operator is put before its operand; a step needs a place. -/
def Prefix.apply (p : Prefix) (x : Term) : Option Term :=
  if (p.op = .preInc ∨ p.op = .preDec) ∧ x.isPlace = false then none
  else some (.mk p.op [x] p.leaf)

/-- The steps after their operand. -/
def postfixSymbols : List (String × Op) := [("++", .postInc), ("--", .postDec)]

/-! ## Atoms -/

/-- The number that digits without leading zeros stand for. It is a float if it is too large for an
integer, and other numerals always are. -/
def number? (text : List Char) : Option Term :=
  if text.all Char.isDigit then
    let n := Nat.ofDigitChars 10 text 0
    if Nat.toDigits 10 n ≠ text then none
    else if n < Nat.pow 2 63 then some (.atom .intLit (.int n))
    else some (.atom .floatLit (.float text))
  else some (.atom .floatLit (.float text))

/-- The words that are constants, in lower case. -/
def constants : List (String × Term) :=
  [("null", .ofArgs .null []), ("true", .atom .boolLit (.bool true)),
   ("false", .atom .boolLit (.bool false))]

/-- A word that stands for itself. -/
def word? (s : String) : Option Term :=
  match constants.lookup (lower s) with
  | some x => some x
  | none =>
    if floatWords.contains s then some (.atom .floatLit (.float s.toList))
    else if isName s then some (.atom .name (.name s))
    else none

/-- What is left after a symbol. -/
def expect (s : String) : List Token → Option (List Token)
  | .symbol t :: rest => if t = s then some rest else none
  | _ => none

/-- A new object, after the word for it. -/
def newObject? : List Token → Option (Term × List Token)
  | .word c :: rest => do
    let rest ← expect "(" rest
    let rest ← expect ")" rest
    if isName c then some (.atom .new (.name c), rest) else none
  | _ => none

/-! ## The reader -/

mutual

/-- An expression with the infix operators of a level and above, and what is left. -/
def expr : (fuel : Nat) → (level : Nat) → List Token → Option (Term × List Token)
  | 0, _, _ => none
  | fuel + 1, level, ts => do
    let (x, rest) ← operand fuel ts
    infixes fuel level none x rest

/-- The infix operators of a level and above that follow an expression, but for a barred level. -/
def infixes : (fuel : Nat) → (level : Nat) → (barred : Option Nat) → Term → List Token →
    Option (Term × List Token)
  | 0, _, _, _, _ => none
  | _ + 1, _, _, x, [] => some (x, [])
  | fuel + 1, level, barred, x, t :: rest =>
    match infix? t with
    | none => some (x, t :: rest)
    | some i =>
      if i.level < level then some (x, t :: rest)
      else if barred = some i.level then none
      else if i.op = .ternary then do
        let (y, rest) ← expr fuel 0 rest
        let rest ← expect ":" rest
        let (z, rest) ← expr fuel i.right rest
        infixes fuel level i.barred (.ofArgs .ternary [x, y, z]) rest
      else do
        let (y, rest) ← expr fuel i.right rest
        infixes fuel level i.barred (.ofArgs i.op [x, y]) rest

/-- An operand with what stands before it and what is linked to it. -/
def operand : (fuel : Nat) → List Token → Option (Term × List Token)
  | 0, _ => none
  | _ + 1, [] => none
  | fuel + 1, t :: rest =>
    match prefix? t with
    | some p => do
      let (x, rest) ← expr fuel p.level rest
      let y ← p.apply x
      some (y, rest)
    | none => do
      let (x, rest) ← primary fuel t rest
      links fuel x rest

/-- What begins with a token and is linked to nothing before it. -/
def primary : (fuel : Nat) → Token → List Token → Option (Term × List Token)
  | 0, _, _ => none
  | _ + 1, .var s, rest => some (.atom .var (.name s), rest)
  | _ + 1, .number text, rest => (number? text).map (·, rest)
  | _ + 1, .quoted parts, rest => some (.atom .interpolated (.string parts), rest)
  | _ + 1, .cast _, _ => none
  | fuel + 1, .word s, rest =>
    if lower s = "new" then newObject? rest
    else if lower s = "tuple" then do
      let rest ← expect "(" rest
      let (xs, rest) ← list fuel ")" rest
      some (.ofArgs .tupleLit xs, rest)
    else (word? s).map (·, rest)
  | fuel + 1, .symbol s, rest =>
    if s = "(" then do
      let (x, rest) ← expr fuel 0 rest
      let rest ← expect ")" rest
      some (.ofArgs .parens [x], rest)
    else if s = "[" then do
      let (xs, rest) ← list fuel "]" rest
      some (.ofArgs .arrayLit xs, rest)
    else none

/-- The members, elements and calls that are linked to an expression, and a step after them. -/
def links : (fuel : Nat) → Term → List Token → Option (Term × List Token)
  | 0, _, _ => none
  | fuel + 1, x, .symbol s :: rest =>
    if s = "->" then
      match rest with
      | .word m :: rest =>
        match expect "(" rest with
        | some rest => do
          let (xs, rest) ← list fuel ")" rest
          links fuel (.mk .methodCall (x :: xs) (some (.name m))) rest
        | none => links fuel (.mk .prop [x] (some (.name m))) rest
      | _ => none
    else if s = "[" then do
      let (y, rest) ← expr fuel 0 rest
      let rest ← expect "]" rest
      links fuel (.ofArgs .index [x, y]) rest
    else if s = "(" then do
      let (xs, rest) ← list fuel ")" rest
      links fuel (.ofArgs .call (x :: xs)) rest
    else
      match postfixSymbols.lookup s with
      | some op => if x.isPlace then some (.ofArgs op [x], rest) else some (x, .symbol s :: rest)
      | none => some (x, .symbol s :: rest)
  | _ + 1, x, ts => some (x, ts)

/-- Expressions separated by commas, up to a closing bracket. A comma may also end them. -/
def list : (fuel : Nat) → (close : String) → List Token → Option (List Term × List Token)
  | 0, _, _ => none
  | fuel + 1, close, ts =>
    match expect close ts with
    | some rest => some ([], rest)
    | none => do
      let (x, rest) ← expr fuel 0 ts
      match expect "," rest with
      | some rest => do
        let (xs, rest) ← list fuel close rest
        some (x :: xs, rest)
      | none => do
        let rest ← expect close rest
        some ([x], rest)

end

/-- The tree of an expression's text, if all of it is one. -/
def read (text : List Char) : Option Term := do
  let ts ← lex text
  match ← expr (4 * ts.length) 0 ts with
  | (x, []) => some x
  | _ => none

end TypedPhp.Read
