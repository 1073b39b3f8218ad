import TypedPhp.Fault
import TypedPhp.Ty.Order

set_option autoImplicit false

/-!
# Syntax trees

A node has an operator, its children in order, an optional payload and an optional static
type. The functions that build nodes give each operator the children and payload it needs; a
node built field by field need not be well formed, and what reads it reports that as a fault.
-/

namespace TypedPhp

/-- What a node carries besides its children. -/
inductive Payload where
  | literal (value : Literal)
  | ident (name : String)
  | op (op : Op)
deriving DecidableEq, Repr, Inhabited

/-- Equality of payloads, literals compared as values. -/
def Payload.eqv : Payload → Payload → Bool
  | literal x, literal y => x.eqv y
  | ident x, ident y => x == y
  | op x, op y => x == y
  | _, _ => false

/-- A node of a syntax tree. -/
inductive Node where
  | mk (op : Op) (args : List Node) (payload : Option Payload) (type : Option Ty)
deriving Repr, Inhabited

namespace Node

def op : Node → Op
  | mk op _ _ _ => op

/-- The children. -/
def args : Node → List Node
  | mk _ args _ _ => args

def payload : Node → Option Payload
  | mk _ _ payload _ => payload

/-- The static type, where it is known. -/
def type : Node → Option Ty
  | mk _ _ _ type => type

/-- A node without payload and type. -/
def ofArgs (op : Op) (args : List Node) : Node := mk op args none none

/-- The same node with a static type. -/
def withType (n : Node) (t : Ty) : Node := mk n.op n.args n.payload (some t)

/-- The operator of a literal node. -/
def literalOp : Literal → Op
  | .bool _ => .boolLit
  | .int _ => .intLit
  | .float _ => .floatLit
  | .string _ => .stringLit

def lit (l : Literal) : Node := mk (literalOp l) [] (some (.literal l)) (some (.scalar l.kind))

def boolLit (v : Bool) : Node := lit (.bool v)
def intLit (v : Int64) : Node := lit (.int v)
def floatLit (v : Double) : Node := lit (.float v)
def stringLit (bytes : List UInt8) : Node := lit (.string bytes)

/-- A string literal that holds the encoding of a text. -/
def textLit (s : String) : Node := stringLit s.toUTF8.toList

def null : Node := ofArgs .null []

def var (name : String) (t : Ty) : Node := mk .var [] (some (.ident name)) (some t)

def name (name : String) : Node := mk .name [] (some (.ident name)) none

/-- A node in parentheses, of the same static type. -/
def parens (x : Node) : Node := mk .parens [x] none x.type

def unary (op : Op) (x : Node) : Node := ofArgs op [x]

def binary (op : Op) (x y : Node) : Node := ofArgs op [x, y]

def assign (lhs rhs : Node) : Node := ofArgs .assign [lhs, rhs]

def assignModify (op : Op) (lhs rhs : Node) : Node :=
  mk .assignModify [lhs, rhs] (some (.op op)) none

def cast (t : Ty) (x : Node) : Node := mk .cast [x] none (some t)

/-- A call of a function by name; the name is the first child. -/
def call (callee : String) (args : List Node) : Node := ofArgs .call (name callee :: args)

/-- A call of a method; the receiver is the first child. -/
def methodCall (receiver : Node) (method : String) (args : List Node) : Node :=
  mk .methodCall (receiver :: args) (some (.ident method)) none

def prop (receiver : Node) (field : String) : Node :=
  mk .prop [receiver] (some (.ident field)) none

def newObject (className : String) : Node := mk .new [] (some (.ident className)) none

def index (x key : Node) : Node := ofArgs .index [x, key]

def ternary (cond x y : Node) : Node := ofArgs .ternary [cond, x, y]

def block (stmts : List Node) : Node := ofArgs .block stmts

def ifThen (cond body : Node) : Node := ofArgs .ifThen [cond, body]

def ifElse (cond body otherwise : Node) : Node := ofArgs .ifElse [cond, body, otherwise]

def ret (x : Node) : Node := ofArgs .returnValue [x]

def retVoid : Node := ofArgs .returnVoid []

/-! ## Reading a node -/

/-- The name that a node carries. -/
def ident? (n : Node) : Option String :=
  match n.payload with
  | some (.ident s) => some s
  | _ => none

/-- The literal that a node carries. -/
def literal? (n : Node) : Option Literal :=
  match n.payload with
  | some (.literal l) => some l
  | _ => none

mutual

/-- The operators of a tree, parents before their children. -/
def walk : Node → List Op
  | mk op args _ _ => op :: walkList args

/-- The operators of several trees. -/
def walkList : List Node → List Op
  | [] => []
  | n :: ns => walk n ++ walkList ns

end

/-- Equality of optional payloads. -/
def eqvPayload : Option Payload → Option Payload → Bool
  | none, none => true
  | some x, some y => x.eqv y
  | _, _ => false

/-- Equality of optional types. -/
def eqvType : Option Ty → Option Ty → Bool
  | none, none => true
  | some x, some y => x.eqv y
  | _, _ => false

mutual

/-- Equality of trees, literals compared as values. -/
def eqv : Node → Node → Bool
  | mk op args payload type, mk op' args' payload' type' =>
    op == op' && eqvList args args' && eqvPayload payload payload' && eqvType type type'

/-- Equality of lists of trees. -/
def eqvList : List Node → List Node → Bool
  | [], [] => true
  | x :: xs, y :: ys => eqv x y && eqvList xs ys
  | _, _ => false

end

/-- Whether a node can be an operand without parentheses: a primary expression, or a number
that is written without a sign. -/
def isSimple (n : Node) : Bool :=
  match n.op with
  | .var | .name | .parens | .stringLit | .boolLit | .null | .call | .methodCall | .cast
  | .arrayLit | .tupleLit | .prop | .index | .interpolated => true
  | .intLit =>
    match n.literal? with
    | some (.int v) => 0 ≤ v
    | _ => false
  | .floatLit =>
    match n.literal? with
    | some (.float v) => !v.isNaN && !v.isNegative
    | _ => false
  | _ => false

/-- The node as an operand: in parentheses unless it is simple. -/
def asOperand (n : Node) : Node := if n.isSimple then n else n.parens

end Node

end TypedPhp
