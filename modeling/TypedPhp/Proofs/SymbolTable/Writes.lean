import TypedPhp.SymbolTable.Basic

set_option autoImplicit false

/-!
# Operations write by write

The operations of a table as sequences of checks and writes. What was written before a fault stays
written, so the state after a fault tells whether an operation is atomic. All of them are: each
agrees with the operation that has no result when it faults, and it leaves the table as it was
(`SymbolTable.Action.run_declare`, `SymbolTable.Action.run_define`, `SymbolTable.Action.run_add`,
`SymbolTable.Action.run_freeze`).
-/

namespace TypedPhp.SymbolTable

/-- A computation that writes to a table and keeps what is written when it faults. -/
abbrev Action := EStateM Fault SymbolTable

namespace Action

variable {α : Type} {t : SymbolTable}

/-! ## The operations -/

/-- Faults on a frozen table. -/
def checkOpen : Action Unit := do
  if (← get).isFrozen then
    throw .frozen

/-- Appends a placeholder of a name that is not taken. -/
def declare (name : String) : Action ClassRef := do
  checkOpen
  if ((← get).classByName? name).isSome then
    throw (.declaredTwice name)
  let id := (← get).classes.length
  modify fun t => { t with classes := t.classes ++ [.placeholder name] }
  return ⟨id, name⟩

/-- Registers the fields of a class from place `index` on, one after the other. -/
def registerFields (owner : Nat) : (index : Nat) → List Field → Action Unit
  | _, [] => pure ()
  | index, f :: fs => do
    if !f.type.isVoid then
      modify fun t => { t with fieldIndex := t.fieldIndex.insert f.type ⟨owner, index⟩ }
    registerFields owner (index + 1) fs

/-- Registers the fields of a class, then fills the placeholder of its name. -/
def define (c : ClassType) : Action Nat := do
  checkOpen
  match (← get).classByName? c.name with
  | none => throw (.undeclared c.name)
  | some id =>
    let known ← ofExcept (elemAt (← get).classes id)
    if known.isDefined then
      throw (.definedTwice c.name)
    registerFields id 0 c.fields
    modify fun t => { t with classes := t.classes.set id { c with isDefined := true } }
    return id

/-- Appends a function of a qualified name that is not taken, then registers it. -/
def add (f : FuncType) : Action Nat := do
  checkOpen
  if ((← get).funcByName? f.qualifiedName).isSome then
    throw (.addedTwice f.qualifiedName)
  let id := (← get).funcs.length
  modify fun t => { t with funcs := t.funcs ++ [f] }
  modify fun t => { t with funcIndex := t.funcIndex.insert f.result id }
  return id

/-- Marks the table as frozen, then puts the indexes in order. -/
def freeze : Action Unit := do
  if (← get).isFrozen then
    throw .frozenTwice
  modify fun t => { t with isFrozen := true }
  modify fun t => { t with funcIndex := t.funcIndex.freeze }
  modify fun t => { t with fieldIndex := t.fieldIndex.freeze }

/-- Reads a table. -/
def read (look : SymbolTable → Except Fault α) : Action α := do
  ofExcept (look (← get))

/-! ## Atomicity -/

/-- The outcome of an operation that has a result and a next table, or else leaves the table as it
was. -/
def settle (t : SymbolTable) : Except Fault (α × SymbolTable) → EStateM.Result Fault SymbolTable α
  | .ok (a, next) => .ok a next
  | .error fault => .error fault t

@[simp]
theorem run_throw (fault : Fault) : (throw fault : Action α).run t = .error fault t := rfl

/-- A change of the result. -/
@[simp]
theorem run_map {β : Type} (g : α → β) (x : Action α) :
    (g <$> x).run t =
      match x.run t with
      | .ok a next => .ok (g a) next
      | .error fault next => .error fault next := by
  simp only [Functor.map, EStateM.map, EStateM.run]
  cases x t <;> rfl

theorem run_checkOpen :
    checkOpen.run t = if t.isFrozen then .error .frozen t else .ok () t := by
  cases h : t.isFrozen <;> simp [checkOpen, h]

/-- A read is atomic. -/
theorem run_ofExcept (x : Except Fault α) :
    (ofExcept x : Action α).run t =
      match x with
      | .ok a => .ok a t
      | .error fault => .error fault t := by
  cases x <;> simp [ofExcept]

/-- A declaration is atomic. -/
theorem run_declare (name : String) : (declare name).run t = settle t (t.declareClass name) := by
  cases hopen : t.isFrozen with
  | true => simp [declare, declareClass, settle, run_checkOpen, hopen]
  | false =>
      cases hname : (t.classByName? name).isSome with
      | true => simp [declare, declareClass, settle, run_checkOpen, hopen, hname]
      | false => simp [declare, declareClass, settle, run_checkOpen, hopen, hname]

/-- The fields of a class are registered. -/
theorem run_registerFields (owner : Nat) (fields : List Field) (index : Nat) :
    (registerFields owner index fields).run t =
      .ok () { t with fieldIndex := insertFields owner index fields t.fieldIndex } := by
  induction fields generalizing index t with
  | nil => rfl
  | cons field fields ih =>
      cases hvoid : field.type.isVoid with
      | true => simp [registerFields, insertFields, hvoid, ih]
      | false => simp [registerFields, insertFields, hvoid, ih]

/-- A definition is atomic: all checks come before the first field is registered. -/
theorem run_define (c : ClassType) : (define c).run t = settle t (t.defineClass c) := by
  cases hopen : t.isFrozen with
  | true => simp [define, defineClass, settle, run_checkOpen, hopen]
  | false =>
      cases hid : t.classByName? c.name with
      | none => simp [define, defineClass, settle, run_checkOpen, hopen, hid]
      | some id =>
          cases hget : t.classes[id]? with
          | none =>
              simp [define, defineClass, settle, run_checkOpen, hopen, hid, hget, run_ofExcept,
                elemAt]
          | some known =>
              cases hknown : known.isDefined with
              | true =>
                  simp [define, defineClass, settle, run_checkOpen, hopen, hid, hget,
                    run_ofExcept, elemAt, hknown]
              | false =>
                  simp [define, defineClass, settle, run_checkOpen, hopen, hid, hget,
                    run_ofExcept, elemAt, hknown, run_registerFields]

/-- An addition is atomic. -/
theorem run_add (f : FuncType) : (add f).run t = settle t (t.addFunc f) := by
  cases hopen : t.isFrozen with
  | true => simp [add, addFunc, settle, run_checkOpen, hopen]
  | false =>
      cases hname : (t.funcByName? f.qualifiedName).isSome with
      | true => simp [add, addFunc, settle, run_checkOpen, hopen, hname]
      | false => simp [add, addFunc, settle, run_checkOpen, hopen, hname]

/-- A freeze is atomic. -/
theorem run_freeze : freeze.run t = settle t (t.freeze.map ((), ·)) := by
  cases hopen : t.isFrozen with
  | true => simp [freeze, SymbolTable.freeze, settle, hopen, Except.map]
  | false => simp [freeze, SymbolTable.freeze, settle, hopen, Except.map]

theorem run_read (look : SymbolTable → Except Fault α) :
    (read look).run t = settle t ((look t).map (·, t)) := by
  cases hlook : look t <;> simp [read, run_ofExcept, settle, hlook, Except.map]

end Action

end TypedPhp.SymbolTable
