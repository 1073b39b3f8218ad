import TypedPhp.Config.Basic
import TypedPhp.Random.Literals
import TypedPhp.Random.Repeated
import TypedPhp.Scope
import TypedPhp.SymbolTable.Basic

set_option autoImplicit false

/-!
# What a draw can see

The surroundings of an expression: configuration, symbols, variables and class. Drawing types
and expressions changes none of them. The bound on attempts holds for each loop that waits for
a suitable sample.
-/

namespace TypedPhp

/-- The surroundings of a draw. -/
structure Env where
  config : Config
  attempts : Nat
  symbols : SymbolTable
  scope : Scope
  /-- The class whose member is being built. -/
  currentClass : Option ClassRef
deriving Repr

namespace Env

/-- A variable as an expression. -/
def varNode (v : ScopeVar) : Node := .var v.name v.type

/-- The newest visible variable of exactly this type, as an expression. -/
def varOf? (env : Env) (t : Ty) : Option Node := (env.scope.findType? t).map varNode

/-- Whether the members of this class are being built. -/
def isCurrent (env : Env) (c : ClassRef) : Bool := env.currentClass == some c

/-- The fields of exactly this type, each with its class. -/
def fieldsOf (env : Env) (t : Ty) : Except Fault (List (ClassRef × Field)) := do
  let refs ← env.symbols.fieldsOf t
  refs.mapM fun r => do
    let c ← env.symbols.classRef r.owner
    let f ← env.symbols.fieldAt r
    return (c, f)

end Env

/-- A chance in percent. -/
def percent (n : Nat) : Double := .ofRatio false n 100

end TypedPhp
