import TypedPhp.Syntax.Node

set_option autoImplicit false

/-!
# Signatures

Functions, methods and classes as the symbol table knows them: names, types and constant
initial values, without bodies.
-/

namespace TypedPhp

/-- A parameter of a function. -/
structure Param where
  name : String
  type : Ty
  /-- The value of an argument that is left out. -/
  default : Option Node
  /-- Whether an argument must be cast to the type, as strictly typed builtins need it. -/
  mustCast : Bool
deriving Repr, Inhabited

namespace Param

/-- A parameter that every call must supply. -/
def required (name : String) (type : Ty) : Param := ⟨name, type, none, false⟩

def hasDefault (p : Param) : Bool := p.default.isSome

/-- How many of the parameters a call must supply: all up to the last one without default. -/
def requiredCount : List Param → Nat
  | [] => 0
  | p :: ps =>
    match requiredCount ps with
    | 0 => if p.hasDefault then 0 else 1
    | n + 1 => n + 2

end Param

/-- The signature of a function or method. -/
structure FuncType where
  name : String
  params : List Param
  result : Ty
  /-- The class of a method. -/
  owner : Option ClassRef
deriving Repr, Inhabited

namespace FuncType

/-- A free function. -/
def function (name : String) (params : List Param) (result : Ty) : FuncType :=
  ⟨name, params, result, none⟩

/-- A method of a class. -/
def method (name : String) (params : List Param) (result : Ty) (owner : ClassRef) : FuncType :=
  ⟨name, params, result, some owner⟩

/-- How many arguments a call has at least. -/
def minArgs (f : FuncType) : Nat := Param.requiredCount f.params

/-- The name that is unique in a program: that of a method begins with its class. -/
def qualifiedName (f : FuncType) : String :=
  match f.owner with
  | some c => c.name ++ "::" ++ f.name
  | none => f.name

end FuncType

/-- Who may use a field. -/
inductive Visibility where
  | publicMember
  | privateMember
deriving DecidableEq, Repr, Inhabited

/-- The keyword of a visibility. -/
def Visibility.text : Visibility → String
  | publicMember => "public"
  | privateMember => "private"

/-- A field of a class. -/
structure Field where
  name : String
  type : Ty
  /-- The constant initial value; a field without one is assigned by the constructor. -/
  init : Option Node
  visibility : Visibility
deriving Repr, Inhabited

/-- A class. It is a placeholder until it is defined. -/
structure ClassType where
  name : String
  fields : List Field
  methods : List FuncType
  isDefined : Bool
deriving Repr, Inhabited

namespace ClassType

/-- A class with its members, not yet registered as defined. -/
def ofMembers (name : String) (fields : List Field) (methods : List FuncType) : ClassType :=
  ⟨name, fields, methods, false⟩

/-- A class of which only the name is known. -/
def placeholder (name : String) : ClassType := ofMembers name [] []

end ClassType

end TypedPhp
