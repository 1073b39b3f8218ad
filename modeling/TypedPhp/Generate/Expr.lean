import TypedPhp.Generate.Types
import TypedPhp.Generate.Value

set_option autoImplicit false

/-!
# Random expressions

`Build.choose` builds an expression of a category: beyond the greatest depth a literal, otherwise a
form from the weighted list of the category, filled in with expressions one level deeper. Every
operand is put in parentheses unless it is simple.

Expressions nest as long as the depth allows it, so the recursion is on the stack of calls: where
it is used up, the building fails. What the configuration allows never uses up the stack that
`Build.onStack` provides.
-/

namespace TypedPhp

namespace Node

/-- A node as an operand of `**`, which binds tighter than casts and signs: only a primary
expression or an unsigned integer stays bare. -/
def asPowerOperand (n : Node) : Node :=
  let isBare :=
    match n.op with
    | .var | .parens | .call | .methodCall | .prop | .index => true
    | .intLit =>
      match n.literal? with
      | some (.int v) => decide (0 ≤ v)
      | _ => false
    | _ => false
  if isBare then n else n.parens

/-- An infix operation on operands that are put in parentheses where they need them. -/
def operation (op : Op) (x y : Node) : Node := binary op x.asOperand y.asOperand

/-- A cast to a primitive kind. -/
def castTo (k : Primitive) (x : Node) : Node := cast (.scalar k.scalar) x

end Node

namespace Draw

variable {ρ : Type} [WordSource ρ]

/-- The places of a tuple type at which a scalar kind stands. -/
def tupleSlots (k : Scalar) : Ty → List Nat
  | .tuple elems =>
    elems.zipIdx.filterMap fun (t, i) => if t.scalarKind? == some k then some i else none
  | _ => []

/-- An element of a kind from a visible tuple, if there is one. -/
def tupleElem (env : Env) (k : Primitive) : Draw ρ (Option Node) :=
  match env.scope.find? fun v => !(tupleSlots k.scalar v.type).isEmpty with
  | none => return none
  | some v => do
    let slot ← pick (tupleSlots k.scalar v.type)
    let element := Node.index (Env.varNode v) (.intLit (Int64.ofNat slot))
    return some (element.withType (.scalar k.scalar))

/-- A part of an interpolated string: a visible scalar variable or literal text. -/
def interpolatedPart (env : Env) : Draw ρ Node := do
  let found? ←
    if ← chance half then do
      let t ← scalarType
      pure (env.varOf? t)
    else pure none
  match found? with
  | some v => return v
  | none => literal env .string

/-- A string of several parts. -/
def interpolated (env : Env) : Draw ρ Node := do
  let n ← range 3 8
  let parts ← times (interpolatedPart env) n
  return (Node.ofArgs .interpolated parts).withType .string

end Draw

namespace Env

/-- A visible variable that holds values of a kind: of that scalar type, or of an enum over
it. -/
def scalarVar (env : Env) (k : Primitive) : Option Node :=
  let holds (v : ScopeVar) : Bool :=
    match v.type with
    | .scalar j => j == k.scalar
    | .enum e => e.kind == k.scalar
    | _ => false
  (env.scope.find? holds).map varNode

end Env

namespace Build

variable {ρ : Type} [WordSource ρ]

/-! ## Forms -/

section Forms

variable (choose : Chooser ρ)

/-- Two expressions of one kind. -/
def pair (k : Primitive) : Build ρ (Node × Node) := do
  let x ← choose (.value k)
  let y ← choose (.value k)
  return (x, y)

/-- A comparison of two expressions of one kind. Floats are compared for equality by a helper
that allows for rounding. -/
def comparison (op : Op) : Build ρ Node := do
  let k ← draw fun _ => Draw.kind
  let (x, y) ← pair choose k
  let equality := Node.call "fuzz_float_eq" [x, y]
  match k, op with
  | .float, .equal | .float, .identical => return equality
  | .float, .notEqual | .float, .notIdentical => return .unary .not equality
  | _, _ => return .operation op x y

/-- A conditional expression in parentheses. -/
def ternary (k : Primitive) : Build ρ Node := do
  let cond ← choose .cond
  let (x, y) ← pair choose k
  let x := if ← draw fun _ => Draw.chance Draw.half then x.parens else x
  let y := if ← draw fun _ => Draw.chance Draw.half then y.parens else y
  return .parens (.ternary cond.asOperand x y)

/-- A nullable variable with a replacement for null, in parentheses, if there is one. -/
def nullCoalesce (k : Primitive) : Build ρ (Option Node) := do
  match (← get).env.varOf? (.nullable (.scalar k.scalar)) with
  | none => return none
  | some v => do
    let rhs ← choose (.value k)
    let n := Node.binary .nullCoalesce v rhs.asOperand
    return some (n.parens.withType (.scalar k.scalar))

/-- A character of a string variable, if there is one; every fourth or so is the last one. -/
def stringIndex : Build ρ (Option Node) := do
  match (← get).env.varOf? .string with
  | none => return none
  | some s => do
    let roll ← draw fun _ => Draw.int false 0 10
    let key ← if 2 < roll then choose (.value .int) else pure (.intLit (-1))
    return some ((Node.index s key).withType .string)

/-- An expression of a form, unless the form needs something that is not there. -/
def ofForm : ExprForm → Build ρ (Option Node)
  | .compare op => some <$> comparison choose op
  | .spaceship => do
    let k ← draw fun _ => Draw.kind
    let (x, y) ← pair choose k
    return some (.operation .spaceship x y)
  | .logical op => do
    let (x, y) ← pair choose .bool
    let n := Node.operation op x y
    match op with
    | .andWord | .orWord | .xorWord => return some n.parens
    | _ => return some n
  | .not => do
    let x ← choose .cond
    return some (.unary .not x.asOperand)
  | .var k => return (← get).env.scalarVar k
  | .literal k => some <$> draw fun env => Draw.literal env k
  | .call k => callOf choose (.scalar k.scalar)
  | .field k => fieldOf (.scalar k.scalar)
  | .tupleElem k => draw fun env => Draw.tupleElem env k
  | .nullCoalesce k => nullCoalesce choose k
  | .ternary k => some <$> ternary choose k
  | .cast k => do
    let x ← mixed choose false
    return some (.castTo k x.asOperand)
  | .intArith op => do
    let (x, y) ← pair choose .int
    return some (.castTo .int (.parens (.operation op x y)))
  | .intBits op => do
    let (x, y) ← pair choose .int
    return some (.operation op x y)
  | .shift op => do
    -- A negative count would be an error, so the count is masked.
    let (x, y) ← pair choose .int
    let count := Node.binary .bitAnd y.asOperand (.intLit 63)
    return some (.binary op x.asOperand count.parens)
  | .intUnary op => do
    let x ← choose (.value .int)
    return some (.unary op x.asOperand)
  | .intExp => do
    let (x, y) ← pair choose .int
    let n := Node.binary .exp x.asPowerOperand y.asPowerOperand
    return some (.castTo .int n.parens)
  | .safeDiv k => do
    let (x, y) ← pair choose k
    return some (.castTo k (.call "fuzz_safe_div" [x, y]))
  | .safeMod => do
    let (x, y) ← pair choose .int
    return some (.castTo .int (.call "fuzz_safe_mod" [x, y]))
  | .floatArith op => do
    let (x, y) ← pair choose .float
    return some (.operation op x y)
  | .concat => do
    let (x, y) ← pair choose .string
    return some (.operation .concat x y)
  | .interpolated => some <$> draw Draw.interpolated
  | .stringIndex => stringIndex choose

/-- An expression of a drawn option: of its form, else of its fallback, else a literal. -/
def ofChoice (c : Category) (choice : Choice ExprForm) : Build ρ Node := do
  match ← ofForm choose choice.option with
  | some n => return n
  | none =>
    match choice.fallback with
    | none => draw fun env => Draw.literal env c.kind
    | some form =>
      match ← ofForm choose form with
      | some n => return n
      | none => draw fun env => Draw.literal env c.kind

/-- An expression of a category: a literal beyond the greatest depth, else an expression of a form
whose parts are one level deeper, now and then in parentheses. -/
def chooseWith (c : Category) : Build ρ Node := do
  let g ← get
  if g.config.maxExprDepth < g.exprDepth then draw fun env => Draw.literal env c.kind
  else do
    let forms ← ExprForm.ofCategory c
    let choice ← draw fun _ => forms.draw
    let n ← deeper (ofChoice choose c choice)
    if ← draw fun env => Draw.chance env.config.paren then return n.parens else return n

end Forms

/-! ## Whole expressions -/

/-- An expression of a category on a stack that holds so many nested expressions. -/
def chooseOn : (stack : Nat) → Category → Build ρ Node
  | 0, _ => throw .stackOverflow
  | stack + 1, c => chooseWith (chooseOn stack) c

/-- A step on the stack that expressions of the greatest depth need: one level for each depth up to
the greatest one, and one for the literals beyond it. -/
def onStack {α : Type} (x : Chooser ρ → Build ρ α) : Build ρ α := do
  x (chooseOn ((← get).config.maxExprDepth + 2))

/-- An expression of a category. -/
def choose (c : Category) : Build ρ Node := onStack fun choose => choose c

/-- An expression of a type. -/
def value (t : Ty) : Build ρ Node := onStack fun choose => valueIn choose t

/-- A call of a known function. -/
def call (id : Nat) : Build ρ Node := onStack fun choose => callIn choose id

/-- A call whose result is exactly this type, if there is one. -/
def callOfType (t : Ty) : Build ρ (Option Node) := onStack fun choose => callOf choose t

/-- A scalar expression of any kind, or an array where that is permitted. -/
def mixedValue (permitArray : Bool) : Build ρ Node := onStack fun choose => mixed choose permitArray

end Build

end TypedPhp
