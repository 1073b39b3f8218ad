import TypedPhp.Generate.Expr

set_option autoImplicit false

/-!
# Simple random statements

Declarations, assignments and output: the statements that hold no other statement.
-/

namespace TypedPhp

namespace Node

/-- Whether a node, stripped of the parentheses around it, reads the given place. -/
def readsPlace : Node → (place : Node) → Bool
  | mk op args payload _, place =>
    match op, args with
    | .parens, x :: _ => readsPlace x place
    | _, _ => op == place.op && eqvPayload payload place.payload && eqvList args place.args

end Node

namespace Draw

variable {ρ : Type} [WordSource ρ]

/-- A field that can be assigned: any of the current class, or a public one of an object in a
variable. -/
def fieldPlace (env : Env) (t : Ty) : Draw ρ (Option Node) := do
  let members ← lift (env.fieldsOf t)
  let isReachable : ClassRef × Field → Bool := fun (c, f) =>
    env.isCurrent c ||
      (f.visibility = .publicMember && (env.varOf? (.object c)).isSome)
  match members.filter isReachable with
  | [] => return none
  | candidates => do
    let (c, f) ← pick candidates
    let object :=
      if env.isCurrent c then some (Node.var "this" (.object c)) else env.varOf? (.object c)
    return object.map fun o => (Node.prop o f.name).withType t

/-- A variable that can be assigned; those of the innermost frame are favoured. -/
def varPlace (env : Env) : Draw ρ (Option Node) := do
  let current := env.scope.current
  let visible := env.scope.visible
  let isLocal ← if current.isEmpty then pure false else chance half
  let v ←
    if isLocal then some <$> pick current
    else if visible.isEmpty then pure none
    else some <$> pick visible
  return v.bind fun v => (env.scope.findName? v.name).map Env.varNode

/-- A place to assign to: now and then a scalar field, mostly a variable. -/
def place? (env : Env) : Draw ρ (Option Node) := do
  let field ←
    if ← chance (percent 25) then do
      let t ← scalarType
      fieldPlace env t
    else pure none
  match field with
  | some f => return some f
  | none => varPlace env

/-- The operators of compound assignments to a type. -/
def compoundOps : Ty → List Op
  | .scalar .int => [.bitAnd, .bitOr, .bitXor]
  | .scalar .float => [.add, .sub, .mul]
  | .scalar .string => [.concat]
  | _ => []

end Draw

namespace Build

variable {ρ : Type} [WordSource ρ]

/-! ## Assignments -/

/-- The first of a value and up to `more` further ones that is not the place itself, or else
the last one that is built. -/
def notPlace (place : Node) (t : Ty) : (more : Nat) → Build ρ Node
  | 0 => value t
  | more + 1 => do
    let x ← value t
    if x.readsPlace place then notPlace place t more else return x

/-- A plain assignment to a place of a type. It never copies the place into itself: after four such
values a constant is taken, and if there is none, nothing is assigned. -/
def assignValue (place : Node) (t : Ty) : Build ρ (List Node) := do
  let rhs ← notPlace place t 3
  if rhs.readsPlace place then
    if t.isConstInitializable then do
      let c ← draw fun env => Draw.constant env t
      return [.assign place c]
    else return []
  else return [.assign place rhs]

/-- An assignment to a place: a compound one now and then, where its type has operators for it. -/
def assignTo (place : Node) : Build ρ (List Node) := do
  let t := place.type.getD .mixed
  let ops := Draw.compoundOps t
  let isCompound ←
    if ops.isEmpty then pure false else draw fun _ => Draw.chance (percent 40)
  if isCompound then do
    let rhs ← value t
    let op ← draw fun _ => Draw.pick ops
    return [.assignModify op place rhs]
  else assignValue place t

/-- A call for the first value of an array, now and then, if there is one. -/
def firstCall (t : Ty) : Build ρ (Option Node) :=
  match t with
  | .array _ => do
    if ← draw fun _ => Draw.chance (percent 30) then callOfType t else return none
  | _ => return none

/-- A first value, now and then under a cast if it is scalar. -/
def firstCast (t : Ty) (x : Node) : Build ρ Node :=
  if t.scalarKind?.isSome then do
    if ← draw fun env => Draw.chance env.config.declCast then return .cast t x.asOperand
    else return x
  else return x

/-- The first value of a declaration. -/
def firstValue (t : Ty) : Build ρ Node := do
  match ← firstCall t with
  | some c => firstCast t c
  | none => do
    let x ← value t
    firstCast t x

/-- A declaration of a variable of a type. The variable is visible after it only. -/
def declare (t : Ty) : Build ρ (List Node) := do
  let name ← freshVar
  let x ← firstValue t
  modifyScope fun s => s.push name t
  return [.assign (.var name t) x]

/-- A declaration of a variable. -/
def declaration : Build ρ (List Node) := do
  let t ← draw Draw.type
  declare t

/-- An assignment, or a declaration where there is nothing to assign to. -/
def assignment : Build ρ (List Node) := do
  match ← draw Draw.place? with
  | some place => assignTo place
  | none => declaration

/-! ## Output, calls and returns -/

/-- A value that is dumped with the number of its line: a variable half of the time, else an
expression of a type that can be dumped. -/
def dump : Build ρ Node := do
  let wantsVariable ← draw fun _ => Draw.chance Draw.half
  let visible := (← get).scope.visible
  let candidates := if wantsVariable then visible.filter (·.type.canDump) else []
  let x ←
    match candidates with
    | [] => do
      let t ← draw fun env => Draw.suchThat Ty.canDump (Draw.type env) env.attempts
      value t
    | vs => Env.varNode <$> draw fun _ => Draw.pick vs
  return .call "fuzz_dump" [.name "__LINE__", x]

/-- The output of a string and a line feed. -/
def echo : Build ρ Node := do
  let s ← choose (.value .string)
  return .ofArgs .echo [s, .textLit "\n"]

/-- A call of a function without result, or a dump if there is no such function. -/
def voidCall : Build ρ Node := do
  match ← callOfType .void with
  | some c => return c
  | none => dump

/-- A return from a function with the given result. -/
def returnOf (result : Ty) : Build ρ Node :=
  if result.isVoid then return .retVoid
  else do
    let x ← value result
    return .ret x

end Build

end TypedPhp
