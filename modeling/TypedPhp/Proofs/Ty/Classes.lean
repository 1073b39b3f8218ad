import TypedPhp.SymbolTable.Basic

set_option autoImplicit false

/-!
# What types refer to

A type names the classes that stand anywhere in it. It stays within a list of class names if each of
its references carries the name that the list has at its index: the list of a symbol table then
resolves every reference of the type. Its values must also be writable: the least integer has no
literal, so no enum may offer it and no place in a tuple may be counted by it.
-/

namespace TypedPhp

/-- A literal of a kind that can be written: the least integer has no literal, as its minus would
be an operator on a number out of range. -/
structure Literal.Drawn (k : Scalar) (l : Literal) : Prop where
  kind : l.kind = k
  writable : l ≠ .int Int64.minValue

namespace Ty

mutual

/-- The classes that a type names. -/
def classes : Ty → List ClassRef
  | scalar _ | callable _ | enum _ => []
  | object c => [c]
  | union x y => x.classes ++ y.classes
  | nullable x => x.classes
  | array elem => elem.classes
  | tuple elems => classesList elems

/-- The classes that several types name. -/
def classesList : List Ty → List ClassRef
  | [] => []
  | t :: ts => t.classes ++ classesList ts

end

/-- The values of a type can be written: no enum in it has the least integer, and its tuples are
short. -/
inductive Writable : Ty → Prop where
  | scalar (k : Scalar) : Writable (.scalar k)
  | object (c : ClassRef) : Writable (.object c)
  | union {x y : Ty} : Writable x → Writable y → Writable (.union x y)
  | nullable {x : Ty} : Writable x → Writable (.nullable x)
  | array {elem : Ty} : Writable elem → Writable (.array elem)
  | tuple {elems : List Ty} : elems.length ≤ 3 → (∀ t ∈ elems, Writable t) → Writable (.tuple elems)
  | enum {e : EnumType} : (∀ l ∈ e.values, l ≠ .int Int64.minValue) → Writable (.enum e)

/-! The parts of a type whose values can be written. -/

section Writable

variable {x y : Ty}

theorem Writable.left : Writable (.union x y) → Writable x
  | .union hx _ => hx

theorem Writable.right : Writable (.union x y) → Writable y
  | .union _ hy => hy

theorem Writable.inner : Writable (.nullable x) → Writable x
  | .nullable hx => hx

theorem Writable.elem : Writable (.array x) → Writable x
  | .array hx => hx

theorem Writable.elems {ts : List Ty} : Writable (.tuple ts) → ∀ t ∈ ts, Writable t
  | .tuple _ hts => hts

theorem Writable.values {e : EnumType} :
    Writable (.enum e) → ∀ l ∈ e.values, l ≠ .int Int64.minValue
  | .enum hvalues => hvalues

end Writable

/-- Every class that a type names satisfies a condition. -/
def ClassesIn (C : ClassRef → Prop) (t : Ty) : Prop := ∀ c ∈ t.classes, C c

section ClassesIn

variable {C : ClassRef → Prop} {t u : Ty} {ts : List Ty}

/-- The classes of a member are classes of the tuple. -/
theorem mem_classesList {c : ClassRef} (ht : t ∈ ts) (hc : c ∈ t.classes) : c ∈ classesList ts := by
  induction ts with
  | nil => cases ht
  | cons u ts ih =>
      rw [classesList]
      rcases List.mem_cons.1 ht with rfl | ht
      · exact List.mem_append_left _ hc
      · exact List.mem_append_right _ (ih ht)

theorem ClassesIn.object {c : ClassRef} (h : (Ty.object c).ClassesIn C) : C c :=
  h c (List.mem_singleton.2 rfl)

theorem ClassesIn.left (h : (Ty.union t u).ClassesIn C) : t.ClassesIn C :=
  fun c hc => h c (List.mem_append_left _ hc)

theorem ClassesIn.right (h : (Ty.union t u).ClassesIn C) : u.ClassesIn C :=
  fun c hc => h c (List.mem_append_right _ hc)

theorem ClassesIn.member (h : (Ty.tuple ts).ClassesIn C) (ht : t ∈ ts) : t.ClassesIn C :=
  fun c hc => h c (mem_classesList ht hc)

end ClassesIn

/-- A type stays within a list of class names: every class that it names stands there under its
index, and its values can be written. -/
structure Within (names : List String) (t : Ty) : Prop where
  known : ∀ c ∈ t.classes, names[c.id]? = some c.name
  writable : t.Writable

variable {names : List String} {t u : Ty} {ts : List Ty}

theorem Within.of_nil (h : t.classes = []) (hw : t.Writable) : t.Within names := by
  refine ⟨fun c hc => ?_, hw⟩
  rw [h] at hc
  cases hc

/-- A class type stays within a list that has its name. -/
theorem Within.object {c : ClassRef} (h : names[c.id]? = some c.name) :
    (Ty.object c).Within names := by
  refine ⟨fun d hd => ?_, .object c⟩
  obtain rfl := List.mem_singleton.1 hd
  exact h

theorem Within.name {c : ClassRef} (h : (Ty.object c).Within names) : names[c.id]? = some c.name :=
  ClassesIn.object h.known

theorem Within.array (h : t.Within names) : (Ty.array t).Within names :=
  ⟨h.known, .array h.writable⟩

/-- A scalar type, or an array of such to any depth. -/
def isPlain : Ty → Bool
  | scalar _ => true
  | array elem => elem.isPlain
  | _ => false

theorem Within.of_isPlain : ∀ {t : Ty}, t.isPlain = true → t.Within names
  | .scalar k, _ => .of_nil rfl (.scalar k)
  | .array elem, h => (of_isPlain (t := elem) h).array

theorem Within.nullable (h : t.Within names) : (Ty.nullable t).Within names :=
  ⟨h.known, .nullable h.writable⟩

theorem Within.elem (h : (Ty.array t).Within names) : t.Within names := by
  cases h.writable with
  | array hw => exact ⟨h.known, hw⟩

theorem Within.inner (h : (Ty.nullable t).Within names) : t.Within names := by
  cases h.writable with
  | nullable hw => exact ⟨h.known, hw⟩

theorem Within.left (h : (Ty.union t u).Within names) : t.Within names := by
  cases h.writable with
  | union hw _ => exact ⟨ClassesIn.left h.known, hw⟩

theorem Within.right (h : (Ty.union t u).Within names) : u.Within names := by
  cases h.writable with
  | union _ hw => exact ⟨ClassesIn.right h.known, hw⟩

theorem Within.member (h : (Ty.tuple ts).Within names) (ht : t ∈ ts) : t.Within names := by
  cases h.writable with
  | tuple _ hw => exact ⟨ClassesIn.member h.known ht, hw t ht⟩

/-- A tuple of types that name no class names none. -/
theorem classesList_eq_nil (h : ∀ t ∈ ts, t.classes = []) : classesList ts = [] := by
  induction ts with
  | nil => rfl
  | cons t ts ih =>
      rw [classesList, h t List.mem_cons_self, ih fun u hu => h u (List.mem_cons_of_mem t hu)]
      rfl

end Ty

/-- The names of the classes of a table, in the order of their indexes. -/
def SymbolTable.classNames (t : SymbolTable) : List String := t.classes.map (·.name)

theorem SymbolTable.classNames_congr {t t' : SymbolTable} (h : t'.classes = t.classes) :
    t'.classNames = t.classNames := by
  rw [classNames, h, classNames]

theorem SymbolTable.classNames_of_getElem? {t : SymbolTable} {i : Nat} {c : ClassType}
    (h : t.classes[i]? = some c) : t.classNames[i]? = some c.name := by
  rw [classNames, List.getElem?_map, h]
  rfl

/-- The class of a method stands in the table. -/
def FuncType.OwnedIn (t : SymbolTable) (f : FuncType) : Prop :=
  ∀ c, f.owner = some c → t.classNames[c.id]? = some c.name

theorem FuncType.OwnedIn.of_none {t : SymbolTable} {f : FuncType} (h : f.owner = none) :
    f.OwnedIn t := by
  intro c hc
  rw [h] at hc
  cases hc

/-- The functions of a table refer to its classes only, by the types of their parameters and as
their owners. -/
structure SymbolTable.Closed (t : SymbolTable) : Prop where
  within : ∀ f ∈ t.funcs, ∀ p ∈ f.params, p.type.Within t.classNames
  owned : ∀ f ∈ t.funcs, f.OwnedIn t

end TypedPhp
