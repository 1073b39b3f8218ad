import TypedPhp.Syntax.Node

set_option autoImplicit false

/-!
# Constant value of a node

The constant that a literal denotes under parentheses and signs.
-/

namespace TypedPhp

namespace Literal

/-- A number under a plus sign; other literals have no value there. -/
def plus : Literal → Option Literal
  | int v => some (int v)
  | float x => some (float x)
  | _ => none

/-- A number under a minus sign. The least integer has no negation. -/
def minus : Literal → Option Literal
  | int v => if v = Int64.minValue then none else some (int (-v))
  | float x => some (float x.neg)
  | _ => none

end Literal

namespace Node

/-- The constant value of a literal node, through parentheses and signs. A sign or a pair of
parentheses without a child is a fault. -/
def constant : Node → Except Fault (Option Literal)
  | mk op args payload _ =>
    match op, args with
    | .boolLit, _ | .intLit, _ | .floatLit, _ | .stringLit, _ =>
      match payload with
      | some (.literal l) => .ok (some l)
      | _ => .ok none
    | .parens, x :: _ => constant x
    | .unaryPlus, x :: _ => do return (← constant x).bind Literal.plus
    | .negation, x :: _ => do return (← constant x).bind Literal.minus
    | .parens, [] | .unaryPlus, [] | .negation, [] => .error (.indexOutOfBounds 0 0)
    | _, _ => .ok none

end Node

end TypedPhp
