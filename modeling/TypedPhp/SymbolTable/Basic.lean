import TypedPhp.Signature
import TypedPhp.SymbolTable.Index

set_option autoImplicit false

/-!
# The symbol table

The classes and functions that generated code may use. Classes are declared, then defined;
functions are added; then the table is frozen. A frozen table never changes, and array types
can be looked up in a frozen table only. An operation that faults has no result, so it leaves
nothing half done.
-/

namespace TypedPhp

/-- A field of a class, by the class's index and its own place there. -/
structure FieldRef where
  owner : Nat
  index : Nat
deriving DecidableEq, Repr, Inhabited

/-- The known classes and functions. The index of a class or function is its place in the
order of declaration. -/
structure SymbolTable where
  classes : List ClassType
  funcs : List FuncType
  isFrozen : Bool
  fieldIndex : TypeIndex FieldRef
  funcIndex : TypeIndex Nat
deriving Repr

namespace SymbolTable

def empty : SymbolTable := ⟨[], [], false, .empty, .empty⟩

instance : Inhabited SymbolTable := ⟨empty⟩

/-! ## Reading -/

/-- The index of the class of a given name. -/
def classByName? (t : SymbolTable) (name : String) : Option Nat :=
  t.classes.findIdx? (·.name == name)

/-- The index of the function of a given qualified name. -/
def funcByName? (t : SymbolTable) (name : String) : Option Nat :=
  t.funcs.findIdx? (·.qualifiedName == name)

def classAt (t : SymbolTable) (id : Nat) : Except Fault ClassType := elemAt t.classes id

def funcAt (t : SymbolTable) (id : Nat) : Except Fault FuncType := elemAt t.funcs id

/-- The reference to the class at an index. -/
def classRef (t : SymbolTable) (id : Nat) : Except Fault ClassRef := do
  let c ← t.classAt id
  return ⟨id, c.name⟩

def fieldAt (t : SymbolTable) (r : FieldRef) : Except Fault Field := do
  let c ← t.classAt r.owner
  elemAt c.fields r.index

/-- Looks a type up; an array type needs a frozen table. -/
def lookup {α : Type} (t : SymbolTable) (index : TypeIndex α) (type : Ty) :
    Except Fault (List α) :=
  match type with
  | .array _ => if t.isFrozen then .ok (index.find type) else .error .notFrozen
  | _ => .ok (index.find type)

/-- The functions whose result is exactly this type, in order of registration. -/
def funcsOf (t : SymbolTable) (type : Ty) : Except Fault (List Nat) := t.lookup t.funcIndex type

/-- The fields of exactly this type, in order of definition. -/
def fieldsOf (t : SymbolTable) (type : Ty) : Except Fault (List FieldRef) :=
  t.lookup t.fieldIndex type

/-- The functions without a result. -/
def voidFuncs (t : SymbolTable) : List Nat := t.funcIndex.find .void

/-! ## Building -/

/-- Reserves a class name; the class is a placeholder until it is defined. -/
def declareClass (t : SymbolTable) (name : String) : Except Fault (ClassRef × SymbolTable) :=
  if t.isFrozen then .error .frozen
  else if (t.classByName? name).isSome then .error (.declaredTwice name)
  else
    .ok (⟨t.classes.length, name⟩, { t with classes := t.classes ++ [.placeholder name] })

/-- Registers the fields of a class from place `index` on; a field cannot be of type `void`. -/
def insertFields (owner : Nat) :
    (index : Nat) → List Field → TypeIndex FieldRef → TypeIndex FieldRef
  | _, [], i => i
  | index, f :: fs, i =>
    insertFields owner (index + 1) fs
      (if f.type.isVoid then i else i.insert f.type ⟨owner, index⟩)

/-- Fills a declared placeholder and registers its fields. -/
def defineClass (t : SymbolTable) (c : ClassType) : Except Fault (Nat × SymbolTable) :=
  if t.isFrozen then .error .frozen
  else
    match t.classByName? c.name with
    | none => .error (.undeclared c.name)
    | some id =>
      match t.classes[id]? with
      | none => .error (.indexOutOfBounds t.classes.length id)
      | some known =>
        if known.isDefined then .error (.definedTwice c.name)
        else
          .ok (id,
            { t with
              classes := t.classes.set id { c with isDefined := true }
              fieldIndex := insertFields id 0 c.fields t.fieldIndex })

/-- Registers a function or method. -/
def addFunc (t : SymbolTable) (f : FuncType) : Except Fault (Nat × SymbolTable) :=
  if t.isFrozen then .error .frozen
  else if (t.funcByName? f.qualifiedName).isSome then .error (.addedTwice f.qualifiedName)
  else
    let id := t.funcs.length
    .ok (id, { t with funcs := t.funcs ++ [f], funcIndex := t.funcIndex.insert f.result id })

/-- Ends the building of a table. -/
def freeze (t : SymbolTable) : Except Fault SymbolTable :=
  if t.isFrozen then .error .frozenTwice
  else
    .ok { t with
      isFrozen := true
      fieldIndex := t.fieldIndex.freeze
      funcIndex := t.funcIndex.freeze }

end SymbolTable

end TypedPhp
