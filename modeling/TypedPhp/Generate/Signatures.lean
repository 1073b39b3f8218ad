import TypedPhp.Catalog
import TypedPhp.Generate.Constant
import TypedPhp.Generate.State
import TypedPhp.Generate.Types

set_option autoImplicit false

/-!
# Random signatures

The classes and functions of a program are settled before any body is built, so that every body
may use all of them. A field of class type only names a class declared earlier and has no initial
value; every other field has a constant one. Parameters with defaults come last.
-/

namespace TypedPhp

namespace Draw

variable {ρ : Type} [WordSource ρ]

/-- The result type of a function: none now and then. -/
def resultType : Draw ρ Ty := do
  if ← chance (percent 20) then return .void else constType

/-- How often in a row an event of chance `p` happens, in at most `n` trials. -/
def runLength (p : Double) : (n : Nat) → Draw ρ Nat
  | 0 => return 0
  | n + 1 => do
    if ← chance p then do
      let rest ← runLength p n
      return rest + 1
    else return 0

/-- The name of the parameter at place `i`. -/
def paramName (i : Nat) : String := "p" ++ toString i

/-- The parameter at place `i`, without a default. -/
def requiredParam (env : Env) (i : Nat) : Draw ρ Param := do
  let t ← type env
  return .required (paramName i) t

/-- The parameter at place `i`, with a constant default. -/
def optionalParam (env : Env) (i : Nat) : Draw ρ Param := do
  let t ← constType
  let default ← constant env t
  return .optional (paramName i) t default

/-- A parameter list. -/
def params (env : Env) : Draw ρ (List Param) := do
  let n ← range env.config.params.min env.config.params.max
  let defaults ← runLength env.config.paramDefault n
  let places := List.range n
  let front ← each (requiredParam env) (places.take (n - defaults))
  let back ← each (optionalParam env) (places.drop (n - defaults))
  return front ++ back

/-- The signature of a free function. -/
def function (env : Env) (name : String) : Draw ρ FuncType := do
  let ps ← params env
  let result ← resultType
  return .function name ps result

/-- The signature of a method. -/
def method (env : Env) (owner : ClassRef) (name : String) : Draw ρ FuncType := do
  let ps ← params env
  let result ← resultType
  return .method name ps result owner

/-- A field. With some chance it holds an object of one of the earlier classes. -/
def field (env : Env) (earlier : List ClassRef) (name : String) : Draw ρ Field := do
  let isPrivate ← chance env.config.privateField
  let visibility := if isPrivate then .privateMember else .publicMember
  let isObject ← if earlier.isEmpty then pure false else chance (percent 20)
  if isObject then do
    let c ← pick earlier
    return ⟨name, .object c, none, visibility⟩
  else do
    let isNullable ← chance (percent 10)
    let t ← if isNullable then Ty.nullable <$> scalarType else constType
    let init ← constant env t
    return ⟨name, t, some init, visibility⟩

/-- A class with its fields and methods, after the classes declared earlier. -/
def classType (env : Env) (earlier : List ClassRef) (c : ClassRef) : Draw ρ ClassType := do
  let fieldCount ← range env.config.fields.min env.config.fields.max
  let fields ← each (fun k => field env earlier ("f" ++ toString k)) (List.range fieldCount)
  let methodCount ← range env.config.methods.min env.config.methods.max
  let methods ← each (fun k => method env c ("m" ++ toString k)) (List.range methodCount)
  return .ofMembers c.name fields methods

/-- The functions of the library file of number `i`. -/
def libFuncs (env : Env) (i : Nat) : Draw ρ (List FuncType) := do
  let n ← range env.config.libFuncs.min env.config.libFuncs.max
  each (fun k => function env ("lib" ++ toString i ++ "_f" ++ toString k)) (List.range n)

end Draw

/-- What is settled before any body is built. -/
structure Signatures where
  classes : List ClassRef
  /-- The functions of each library file. -/
  libFuncs : List (List FuncType)
deriving Repr, Inhabited

namespace Build

variable {ρ : Type}

/-- Registers functions, in order. -/
def register (funcs : List FuncType) : Build ρ Unit :=
  funcs.forM fun f => do
    let _ ← modifySymbols (·.addFunc f)

/-- Registers the built-in functions. -/
def registerBuiltins : Build ρ Unit := register Catalog.builtins

/-- Declares the classes of a program. -/
def declareClasses (n : Nat) : Build ρ (List ClassRef) :=
  (List.range n).mapM fun i => modifySymbols (·.declareClass ("C" ++ toString i))

variable [WordSource ρ]

/-- Defines declared classes, in order, and collects their methods. -/
def defineClasses (earlier : List ClassRef) : List ClassRef → Build ρ (List FuncType)
  | [] => return []
  | c :: rest => do
    let type ← draw fun env => Draw.classType env earlier c
    let _ ← modifySymbols (·.defineClass type)
    let methods ← defineClasses (earlier ++ [c]) rest
    return type.methods ++ methods

/-- Settles the functions of the library file of number `i`. -/
def libFuncs (i : Nat) : Build ρ (List FuncType) := do
  let funcs ← draw fun env => Draw.libFuncs env i
  register funcs
  return funcs

/-- Settles the classes and functions of a program. Methods are registered last. -/
def signatures : Build ρ Signatures := do
  let classes ← declareClasses (← get).config.classes
  let methods ← defineClasses [] classes
  let libFuncs ← (List.range (← get).config.libFiles).mapM libFuncs
  register methods
  return ⟨classes, libFuncs⟩

end Build

end TypedPhp
