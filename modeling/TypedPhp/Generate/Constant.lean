import TypedPhp.Generate.Env

set_option autoImplicit false

/-!
# Random constants

Literals of each kind, and values that can stand where the language wants a constant.
-/

namespace TypedPhp.Draw

variable {ρ : Type} [WordSource ρ]

/-- A literal of a kind. -/
def literal (env : Env) (k : Primitive) : Draw ρ Node := do
  let l ← literalValue env.config.interesting k
  return .lit l

/-- A literal of a scalar kind; for `mixed`, of any kind that has literals. -/
def scalarLiteral (env : Env) : Scalar → Draw ρ Node
  | .bool => literal env .bool
  | .int => literal env .int
  | .float => literal env .float
  | .string => literal env .string
  | .mixed => do
    let k ← pick Primitive.all
    literal env k
  | .void => throw .voidLiteral

/-- A constant of a type. -/
def constant (env : Env) : Ty → Draw ρ Node
  | .scalar k => scalarLiteral env k
  | .enum e => do
    let l ← pick e.values
    return .lit l
  | .array elem => do
    let n ← range 0 3
    let elems ← times (constant env elem) n
    return (Node.ofArgs .arrayLit elems).withType (.array elem)
  | .nullable inner => do
    if ← chance (percent 30) then return Node.null.withType (.nullable inner)
    else constant env inner
  | .union x y => do
    if ← chance half then constant env x else constant env y
  | t => throw (.noConstant t)

end TypedPhp.Draw
