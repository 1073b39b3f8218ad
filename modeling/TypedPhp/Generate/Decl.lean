import TypedPhp.Generate.Stmt
import TypedPhp.Syntax.Program

set_option autoImplicit false

/-!
# Random declarations

Functions and classes with their bodies. A guarded body runs once only: later calls, recursive
ones included, return a constant. The constructor of a class creates the objects that its fields
hold.
-/

namespace TypedPhp

/-- The documentation of a signature: its parameters, then its result. -/
def FuncType.docTags (f : FuncType) : List DocTag :=
  let param (p : Param) : DocTag := ⟨"@param", String.ofList p.type.text ++ " $" ++ p.name⟩
  f.params.map param ++ [⟨"@return", String.ofList f.result.text⟩]

namespace ClassType

/-- Assignments of new objects to the fields that hold objects and have no initial value. -/
def creations (t : ClassType) (c : ClassRef) : List Node :=
  t.fields.filterMap fun f =>
    match f.type, f.init with
    | .object target, none =>
      let place := Node.prop (.var "this" (.object c)) f.name
      some (.assign place ((Node.newObject target.name).withType f.type))
    | _, _ => none

/-- The constructor of a class, if it has anything to create. -/
def constructors (t : ClassType) (c : ClassRef) : List FuncDecl :=
  match t.creations c with
  | [] => []
  | creations => [⟨.method "__construct" [] .void c, [], creations⟩]

end ClassType

namespace Draw

variable {ρ : Type} [WordSource ρ]

/-- The statement that returns a constant from the second call of a function on. -/
def guard (env : Env) (f : FuncType) : Draw ρ Node := do
  let early ←
    if f.result.isVoid then pure Node.retVoid else Node.ret <$> constant env f.result
  return .ifThen (.call "fuzz_visited" [.textLit f.qualifiedName]) (.block [early])

end Draw

namespace Build

variable {ρ : Type} [WordSource ρ]

/-- A function or method with a body of its own, built on the stack that statements of the greatest
depth need. -/
def funcDecl (isGuarded : Bool) (f : FuncType) : Build ρ FuncDecl := do
  beginFunction f.owner f.result
  let stmts ← inFrame do
    f.params.forM fun p => modifyScope fun s => s.push p.name p.type
    let guards ←
      if isGuarded then do
        let guard ← draw fun env => Draw.guard env f
        pure [guard]
      else pure []
    let stmts ← body ((← get).config.maxStmtDepth + 1)
    return guards ++ stmts
  return ⟨f, f.docTags, stmts⟩

/-- A class with the bodies of its methods. -/
def classDecl (c : ClassRef) : Build ρ RootNode := do
  let type ← (← get).symbols.classAt c.id
  let methods ← type.methods.mapM (funcDecl true)
  return .classDecl type (type.constructors c ++ methods)

end Build

end TypedPhp
