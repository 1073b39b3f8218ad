import TypedPhp.Generate.Env

set_option autoImplicit false

/-!
# Random types

Types of variables, parameters, results and fields. A type nests at most three levels deep;
tuples and unions occur at the outermost level only, and the members of a union differ.
-/

namespace TypedPhp.Draw

variable {ρ : Type} [WordSource ρ]

/-- One of the kinds that have literals. -/
def kind : Draw ρ Primitive := pick Primitive.all

/-- A scalar type that has literals. -/
def scalarType : Draw ρ Ty := do
  let k ← kind
  return .scalar k.scalar

/-- A whole number of eighths, as a float. Eighths are exact, so that two of them that differ
are written differently. -/
def eighths : Draw ρ Double := do
  let n ← int false (-8000) 7999
  return .ofRatio (n < 0) n.natAbs 8

/-- The literals from which the values of an enum are taken, for the kinds that have enums. -/
def enumValue (env : Env) : Scalar → Draw ρ Literal
  | .int => literalValue env.config.interesting .int
  | .float => do return .float (← eighths)
  | .string => literalValue env.config.interesting .string
  | k => throw (.noEnumOver k)

/-- An enum of three distinct values of a kind. -/
def enumType (env : Env) (k : Scalar) : Draw ρ Ty := do
  let values ← distinct Literal.eqv env.attempts 3 (enumValue env k)
  return .enum ⟨k, values⟩

/-- An enum over integers, floats or strings, or nothing when truth values are drawn. -/
def maybeEnumType (env : Env) : Draw ρ (Option Ty) := do
  match ← kind with
  | .bool => return none
  | k => return some (← enumType env k.scalar)

/-- A known class, if there is one. -/
def knownClass (symbols : SymbolTable) : Draw ρ (Option ClassRef) :=
  match symbols.classes with
  | [] => return none
  | classes => do
    let i ← place classes.length
    lift (return some (← symbols.classRef i))

/-- A union of two different scalar types. -/
def unionType (env : Env) : Draw ρ Ty := do
  let x ← scalarType
  let y ← suchThat (fun y => !y.identical x) scalarType env.attempts
  return .union x y

/-- A type that nests at most `levels` levels deep. -/
def typeWithin (env : Env) : (levels : Nat) → Draw ρ Ty
  | 0 => scalarType
  | levels + 1 => do
    let isOutermost := levels = 2
    match ← int false 0 (9 + (2 - levels) * 3) with
    | 0 => return .array (← typeWithin env levels)
    | 1 =>
      match ← maybeEnumType env with
      | some t => return t
      | none => typeWithin env levels
    | 2 => return .nullable (← scalarType)
    | 3 =>
      if isOutermost then do
        let n ← range 2 3
        return .tuple (← times scalarType n)
      else scalarType
    | 4 =>
      match ← knownClass env.symbols with
      | some c => return .object c
      | none => scalarType
    | 5 => if isOutermost then unionType env else scalarType
    | _ => scalarType

/-- A type for a variable or parameter. -/
def type (env : Env) : Draw ρ Ty := typeWithin env 3

/-- A type whose values can be written as constants: a scalar, or an array of scalars. -/
def constType : Draw ρ Ty := do
  let elem ← scalarType
  if ← chance (percent 25) then return .array elem else return elem

end TypedPhp.Draw
