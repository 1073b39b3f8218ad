import TypedPhp.Generate.Constant
import TypedPhp.Generate.Forms
import TypedPhp.Generate.State

set_option autoImplicit false

/-!
# Random values

Expressions of a given type. The elements of array and tuple literals and the arguments of calls
are one level deeper than what holds them; where the depth comes close to its limit, fewer of them
are built. A chooser builds an expression of a category at the depth that is reached. The functions
here take it as a parameter, so that each of them recurs on the type alone.
-/

namespace TypedPhp.Build

variable {ρ : Type} [WordSource ρ]

/-- What builds an expression of a category. -/
abbrev Chooser (ρ : Type) := Category → Build ρ Node

/-- A visible variable of exactly this type with chance `p`, if there is one, else a fresh
expression. -/
def reuse (p : Double) (t : Ty) (fresh : Build ρ Node) : Build ρ Node := do
  if ← draw fun _ => Draw.chance p then
    match (← get).env.varOf? t with
    | some v => return v
    | none => fresh
  else fresh

/-- An array literal of one to four elements, of at most two where the depth is at its limit. -/
def arrayLit (elem : Ty) (element : Build ρ Node) : Build ρ Node := do
  let elems ← deeper do
    let g ← get
    let n ← draw fun _ => Draw.range 1 (if g.config.maxExprDepth ≤ g.exprDepth then 2 else 4)
    Draw.times element n
  return (Node.ofArgs .arrayLit elems).withType (.array elem)

/-- A scalar expression of any kind, or an array of scalars where that is permitted and the depth
is below its limit. -/
def mixed (choose : Chooser ρ) (permitArray : Bool) : Build ρ Node := do
  let g ← get
  let isArrayAllowed := permitArray && decide (g.exprDepth < g.config.maxExprDepth)
  match ← draw fun _ => Draw.int false 0 (if isArrayAllowed then 4 else 3) with
  | 0 => choose (.value .bool)
  | 1 => choose (.value .int)
  | 2 => choose (.value .float)
  | 3 => choose (.value .string)
  | _ => do
    let k ← draw fun _ => Draw.pick Primitive.all
    arrayLit (.scalar k.scalar) (choose (.value k))

mutual

/-- An expression of a type. -/
def valueIn (choose : Chooser ρ) : Ty → Build ρ Node
  | .scalar .bool => choose (.value .bool)
  | .scalar .int => choose (.value .int)
  | .scalar .float => choose (.value .float)
  | .scalar .string => choose (.value .string)
  | .scalar .mixed => mixed choose true
  | .scalar .void => throw .voidValue
  | .enum e => reuse (percent 60) (.enum e) do
    let l ← draw fun _ => Draw.pick e.values
    return .lit l
  | .array elem => reuse (percent 40) (.array elem) (arrayLit elem (valueIn choose elem))
  | .tuple elems => reuse Draw.half (.tuple elems) do
    let args ← deeper (valuesIn choose elems)
    return (Node.ofArgs .tupleLit args).withType (.tuple elems)
  | .object c => reuse Draw.half (.object c)
    (return (Node.newObject c.name).withType (.object c))
  | .nullable inner => do
    let roll ← draw fun _ => Draw.int false 0 9
    if roll < 3 then return Node.null.withType (.nullable inner)
    else if roll < 6 then
      match (← get).env.varOf? (.nullable inner) with
      | some v => return v
      | none => valueIn choose inner
    else valueIn choose inner
  | .union x y => reuse (percent 40) (.union x y) do
    if ← draw fun _ => Draw.chance Draw.half then valueIn choose x
    else valueIn choose y
  | .callable f => throw (.noValue (.callable f))

/-- Expressions of several types, in order. -/
def valuesIn (choose : Chooser ρ) : List Ty → Build ρ (List Node)
  | [] => return []
  | t :: ts => do
    let x ← valueIn choose t
    let xs ← valuesIn choose ts
    return x :: xs

end

/-! ## Members of classes and calls -/

/-- An object of a class on which a member can be used: the current object inside the class,
else a variable or a new object. -/
def receiver (c : ClassRef) : Build ρ Node := do
  if (← get).env.isCurrent c then return .var "this" (.object c)
  else
    reuse (percent 70) (.object c)
      (return .parens ((Node.newObject c.name).withType (.object c)))

/-- A readable field of exactly this type on some object, if there is one. -/
def fieldOf (t : Ty) : Build ρ (Option Node) := do
  let env := (← get).env
  let members ← env.fieldsOf t
  match members.filter fun (c, f) => f.visibility = .publicMember || env.isCurrent c with
  | [] => return none
  | candidates => do
    let (c, f) ← draw fun _ => Draw.pick candidates
    let object ← receiver c
    return some ((Node.prop object f.name).withType t)

/-- An argument for a parameter: an expression of its type, cast where the parameter needs
it. -/
def argument (choose : Chooser ρ) (p : Param) : Build ρ Node := do
  let arg ← valueIn choose p.type
  return if p.mustCast then .cast p.type arg.asOperand else arg

/-- A call of a known function. The arguments come first, then the object of a method. -/
def callIn (choose : Chooser ρ) (id : Nat) : Build ρ Node := do
  let f ← (← get).symbols.funcAt id
  let args ← deeper do
    let n ← draw fun _ => Draw.range f.minArgs f.params.length
    Draw.each (argument choose) (f.params.take n)
  match f.owner with
  | some c => do
    let object ← receiver c
    return (Node.methodCall object f.name args).withType f.result
  | none => return (Node.call f.name args).withType f.result

/-- A call of a known function whose result is exactly this type, if there is one. -/
def callOf (choose : Chooser ρ) (t : Ty) : Build ρ (Option Node) := do
  match ← (← get).symbols.funcsOf t with
  | [] => return none
  | ids => do
    let id ← draw fun _ => Draw.pick ids
    return some (← callIn choose id)

end TypedPhp.Build
