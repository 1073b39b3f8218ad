import Mathlib.Data.List.Nodup
import TypedPhp.Proofs.SymbolTable.Reachable

set_option autoImplicit false

/-!
# Tables and the calls that build them

A table is built by calls that declare a class, define one or add a function. What the table holds
can be read off the calls that it accepted (`SymbolTable.tableOf`): the classes in the order of
their declarations, the functions in the order of their additions, and under each type the fields
in the order of the definitions. Whether the next call is accepted can be read off them as well
(`SymbolTable.Admits`), and so can its answer and the table after it
(`SymbolTable.declareClass_tableOf`, `SymbolTable.defineClass_tableOf`,
`SymbolTable.addFunc_tableOf`).
-/

namespace TypedPhp.SymbolTable

/-! ## Calls -/

/-- A call that builds a table. -/
inductive Call where
  | declare (name : String)
  | define (c : ClassType)
  | add (f : FuncType)

namespace Call

/-- The class name that a call declares. -/
def declared? : Call → Option String
  | declare name => some name
  | _ => none

/-- The class that a call defines. -/
def defined? : Call → Option ClassType
  | define c => some c
  | _ => none

/-- The function that a call adds. -/
def added? : Call → Option FuncType
  | add f => some f
  | _ => none

/-- What a call answers. -/
inductive Answer where
  | declared (ref : ClassRef)
  | defined (id : Nat)
  | added (id : Nat)

/-- The answer of a call and the table after it. -/
def result (t : SymbolTable) : Call → Except Fault (Answer × SymbolTable)
  | declare name => (t.declareClass name).map fun p => (.declared p.1, p.2)
  | define c => (t.defineClass c).map fun p => (.defined p.1, p.2)
  | add f => (t.addFunc f).map fun p => (.added p.1, p.2)

/-- The table after a call. -/
def apply (t : SymbolTable) (call : Call) : Except Fault SymbolTable :=
  (call.result t).map (·.2)

end Call

/-- The table that calls build, one after the other; the first fault ends them. -/
def build (calls : List Call) : Except Fault SymbolTable := calls.foldlM Call.apply .empty

/-! ## What calls leave behind -/

/-- The class names that are declared, in order. -/
def declared (calls : List Call) : List String := calls.filterMap Call.declared?

/-- The classes that are defined, in order. -/
def defined (calls : List Call) : List ClassType := calls.filterMap Call.defined?

/-- The functions that are added, in order. -/
def added (calls : List Call) : List FuncType := calls.filterMap Call.added?

/-- The class of a name: as it is defined, or else a placeholder. -/
def classOf (calls : List Call) (name : String) : ClassType :=
  match (defined calls).find? (·.name == name) with
  | some c => { c with isDefined := true }
  | none => .placeholder name

/-- The functions, each under the type of its result. -/
def funcEntries (calls : List Call) : List (Ty × Nat) :=
  (added calls).zipIdx.map fun p => (p.1.result, p.2)

/-- The fields of a class from a place on, each under its type; those of type `void` are left
out. -/
def entriesFrom (owner index : Nat) (fields : List Field) : List (Ty × FieldRef) :=
  ((fields.zipIdx index).filter fun p => !p.1.type.isVoid).map fun p => (p.1.type, ⟨owner, p.2⟩)

/-- The fields of all classes, each under its type. -/
def fieldEntries (calls : List Call) : List (Ty × FieldRef) :=
  (defined calls).flatMap fun c => entriesFrom ((declared calls).idxOf c.name) 0 c.fields

/-- The table that calls leave behind. -/
def tableOf (calls : List Call) : SymbolTable where
  classes := (declared calls).map (classOf calls)
  funcs := added calls
  isFrozen := false
  fieldIndex := .ofEntries (fieldEntries calls)
  funcIndex := .ofEntries (funcEntries calls)

/-- The table that calls and a freeze leave behind. -/
def frozenOf (calls : List Call) : SymbolTable :=
  { tableOf calls with
    isFrozen := true
    fieldIndex := (tableOf calls).fieldIndex.freeze
    funcIndex := (tableOf calls).funcIndex.freeze }

/-- Whether a call is accepted after others: a class is declared once, defined once and after its
declaration, and a qualified name is added once. -/
def Admits (calls : List Call) : Call → Prop
  | .declare name => name ∉ declared calls
  | .define c => c.name ∈ declared calls ∧ c.name ∉ (defined calls).map (·.name)
  | .add f => f.qualifiedName ∉ (added calls).map (·.qualifiedName)

/-- The answer to a call that is accepted after others. -/
def answerOf (calls : List Call) : Call → Call.Answer
  | .declare name => .declared ⟨(declared calls).length, name⟩
  | .define c => .defined ((declared calls).idxOf c.name)
  | .add _ => .added (added calls).length

/-- Calls each of which is accepted after those before it. -/
inductive Lawful : List Call → Prop where
  | nil : Lawful []
  | snoc {calls : List Call} {call : Call} : Lawful calls → Admits calls call →
      Lawful (calls ++ [call])

variable {calls : List Call} {name : String} {c : ClassType} {f : FuncType}

section Append

variable (calls : List Call)

@[simp]
theorem declared_append (more : List Call) :
    declared (calls ++ more) = declared calls ++ declared more := by
  simp [declared]

@[simp]
theorem defined_append (more : List Call) :
    defined (calls ++ more) = defined calls ++ defined more := by
  simp [defined]

@[simp]
theorem added_append (more : List Call) : added (calls ++ more) = added calls ++ added more := by
  simp [added]

@[simp] theorem declared_declare : declared [.declare name] = [name] := rfl
@[simp] theorem declared_define : declared [.define c] = [] := rfl
@[simp] theorem declared_add : declared [.add f] = [] := rfl
@[simp] theorem defined_declare : defined [.declare name] = [] := rfl
@[simp] theorem defined_define : defined [.define c] = [c] := rfl
@[simp] theorem defined_add : defined [.add f] = [] := rfl
@[simp] theorem added_declare : added [.declare name] = [] := rfl
@[simp] theorem added_define : added [.define c] = [] := rfl
@[simp] theorem added_add : added [.add f] = [f] := rfl

end Append

/-- A class is defined by a call that defines it. -/
theorem mem_defined_iff : c ∈ defined calls ↔ .define c ∈ calls := by
  rw [defined, List.mem_filterMap]
  constructor
  · rintro ⟨call, hmem, hcall⟩
    cases call with
    | define d =>
        obtain rfl := Option.some.inj hcall
        exact hmem
    | _ => cases hcall
  · intro hmem
    exact ⟨.define c, hmem, rfl⟩

/-- Something new at the end of a list without duplicates. -/
theorem nodup_snoc {α : Type} {xs : List α} {x : α} (h : xs.Nodup) (hx : x ∉ xs) :
    (xs ++ [x]).Nodup := by
  rw [List.nodup_append]
  refine ⟨h, by simp, ?_⟩
  intro y hy z hz
  rw [List.mem_singleton.1 hz]
  rintro rfl
  exact hx hy

namespace Lawful

/-- No class name is declared twice. -/
theorem declared_nodup (h : Lawful calls) : (declared calls).Nodup := by
  induction h with
  | nil => exact List.nodup_nil
  | @snoc calls call _ hadmits ih =>
      cases call with
      | declare name =>
          rw [declared_append, declared_declare]
          exact nodup_snoc ih hadmits
      | define c => simpa using ih
      | add f => simpa using ih

/-- A class is defined after it is declared. -/
theorem declared_of_defined (h : Lawful calls) : ∀ c ∈ defined calls, c.name ∈ declared calls := by
  induction h with
  | nil => simp [defined]
  | @snoc calls call _ hadmits ih =>
      intro c hc
      cases call with
      | declare name =>
          simp only [defined_append, defined_declare, List.append_nil] at hc
          simp [ih c hc]
      | define d =>
          simp only [defined_append, defined_define, List.mem_append, List.mem_singleton] at hc
          rcases hc with hc | rfl
          · simpa using ih c hc
          · simpa using hadmits.1
      | add f =>
          simp only [defined_append, defined_add, List.append_nil] at hc
          simpa using ih c hc

/-- No class name is defined twice. -/
theorem defined_nodup (h : Lawful calls) : ((defined calls).map (·.name)).Nodup := by
  induction h with
  | nil => exact List.nodup_nil
  | @snoc calls call _ hadmits ih =>
      cases call with
      | declare name => simpa using ih
      | define c =>
          rw [defined_append, defined_define, List.map_append, List.map_singleton]
          exact nodup_snoc ih hadmits.2
      | add f => simpa using ih

end Lawful

/-! ## The class of a name -/

/-- No class is found under a name that is not defined. -/
theorem find?_defined_eq_none (h : name ∉ (defined calls).map (·.name)) :
    (defined calls).find? (·.name == name) = none := by
  rw [List.find?_eq_none]
  intro c hc heq
  rw [← beq_iff_eq.1 heq] at h
  exact h (List.mem_map_of_mem hc)

/-- A class is found under a name that is defined. -/
theorem exists_find?_defined (h : name ∈ (defined calls).map (·.name)) :
    ∃ c, (defined calls).find? (·.name == name) = some c := by
  obtain ⟨c, hc, rfl⟩ := List.mem_map.1 h
  rw [← Option.isSome_iff_exists, List.find?_isSome]
  exact ⟨c, hc, beq_self_eq_true c.name⟩

/-- The class of a name has this name. -/
theorem name_classOf (calls : List Call) (name : String) : (classOf calls name).name = name := by
  unfold classOf
  split
  · rename_i c hc
    have hname := List.find?_some hc
    exact beq_iff_eq.1 hname
  · rfl

theorem classOf_of_not_mem (h : name ∉ (defined calls).map (·.name)) :
    classOf calls name = .placeholder name := by
  rw [classOf, find?_defined_eq_none h]

/-- The class of a name is defined by a definition of the name. -/
theorem isDefined_classOf :
    (classOf calls name).isDefined = true ↔ name ∈ (defined calls).map (·.name) := by
  by_cases h : name ∈ (defined calls).map (·.name)
  · obtain ⟨c, hc⟩ := exists_find?_defined h
    simp [classOf, hc, h]
  · simp [classOf_of_not_mem h, h, ClassType.placeholder, ClassType.ofMembers]

/-- A class that is defined is known as it is defined. -/
theorem Lawful.classOf_of_mem (h : Lawful calls) (hc : c ∈ defined calls) :
    classOf calls c.name = { c with isDefined := true } := by
  obtain ⟨d, hd⟩ := exists_find?_defined (List.mem_map_of_mem hc)
  have hname := List.find?_some hd
  have hmem := List.mem_of_find?_eq_some hd
  obtain rfl := List.inj_on_of_nodup_map h.defined_nodup hmem hc (beq_iff_eq.1 hname)
  rw [classOf, hd]

theorem classOf_append (h : name ∈ (defined calls).map (·.name)) (more : List Call) :
    classOf (calls ++ more) name = classOf calls name := by
  obtain ⟨c, hc⟩ := exists_find?_defined h
  simp [classOf, List.find?_append, hc]

theorem classOf_append_of_not_mem {more : List Call} (h : name ∉ (defined more).map (·.name)) :
    classOf (calls ++ more) name = classOf calls name := by
  simp [classOf, List.find?_append, find?_defined_eq_none h]

/-- A class that is defined for the first time is known as it is defined. -/
theorem classOf_define (h : c.name ∉ (defined calls).map (·.name)) :
    classOf (calls ++ [.define c]) c.name = { c with isDefined := true } := by
  simp [classOf, List.find?_append, find?_defined_eq_none h]

/-! ## The table that calls leave behind -/

theorem names_tableOf (calls : List Call) :
    (tableOf calls).classes.map (·.name) = declared calls := by
  have hname : ((·.name) ∘ classOf calls) = id := funext (name_classOf calls)
  rw [tableOf, List.map_map, hname, List.map_id]

/-- A class is found by its name, in the place of its declaration. -/
theorem classByName?_tableOf (calls : List Call) (name : String) :
    (tableOf calls).classByName? name =
      if name ∈ declared calls then some ((declared calls).idxOf name) else none := by
  by_cases h : name ∈ declared calls
  · have hfind : (tableOf calls).classByName? name = (declared calls).findIdx? (· == name) := by
      rw [classByName?, ← names_tableOf calls, List.findIdx?_map]
      rfl
    rw [if_pos h, hfind]
    exact List.findIdx?_eq_some_of_exists ⟨name, h, beq_self_eq_true name⟩
  · rw [if_neg h, classByName?_eq_none_iff, names_tableOf]
    exact h

theorem classes_tableOf (h : name ∈ declared calls) :
    (tableOf calls).classes[(declared calls).idxOf name]? = some (classOf calls name) := by
  rw [tableOf, List.getElem?_map, List.getElem?_idxOf h]
  rfl

/-- The fields of a class are registered one after the other. -/
theorem insertFields_ofEntries (owner : Nat) (fields : List Field) (index : Nat)
    (entries : List (Ty × FieldRef)) :
    insertFields owner index fields (.ofEntries entries) =
      .ofEntries (entries ++ entriesFrom owner index fields) := by
  induction fields generalizing index entries with
  | nil => simp [insertFields, entriesFrom]
  | cons field fields ih =>
      rw [insertFields]
      by_cases hvoid : field.type.isVoid = true
      · rw [if_pos hvoid, ih]
        simp [entriesFrom, hvoid]
      · rw [if_neg hvoid, ← TypeIndex.ofEntries_append, ih]
        simp [entriesFrom, hvoid]

theorem freeze_tableOf (calls : List Call) : (tableOf calls).freeze = .ok (frozenOf calls) := rfl

/-! ## The table after one more call -/

/-- A declaration adds a placeholder. -/
theorem tableOf_declare (h : Lawful calls) (hname : name ∉ declared calls) :
    tableOf (calls ++ [.declare name]) =
      { tableOf calls with classes := (tableOf calls).classes ++ [.placeholder name] } := by
  have hundefined : name ∉ (defined calls).map (·.name) := by
    intro hmem
    obtain ⟨c, hc, rfl⟩ := List.mem_map.1 hmem
    exact hname (h.declared_of_defined c hc)
  have hclassOf : classOf (calls ++ [.declare name]) = classOf calls := by
    funext n
    exact classOf_append_of_not_mem (by simp)
  -- The places of the names that are defined do not change.
  have hfields : fieldEntries (calls ++ [.declare name]) = fieldEntries calls := by
    rw [fieldEntries, fieldEntries, defined_append, defined_declare, List.append_nil]
    apply List.flatMap_congr
    intro c hc
    rw [declared_append, List.idxOf_append_of_mem (h.declared_of_defined c hc)]
  simp [tableOf, hclassOf, hfields, funcEntries, classOf_of_not_mem hundefined]

/-- Two functions that differ at one element differ in one place of a list without duplicates. -/
theorem map_eq_set_map {α β : Type} [BEq α] [LawfulBEq α] {xs : List α} {a : α} (hnodup : xs.Nodup)
    (ha : a ∈ xs) {f g : α → β} (hsame : ∀ b, b ≠ a → g b = f b) :
    xs.map g = (xs.map f).set (xs.idxOf a) (g a) := by
  apply List.ext_getElem?
  intro i
  rw [List.getElem?_map]
  by_cases hi : xs.idxOf a = i
  · subst hi
    have hlt : xs.idxOf a < (xs.map f).length := by
      rw [List.length_map]
      exact List.idxOf_lt_length_of_mem ha
    rw [List.getElem?_set_self hlt, List.getElem?_idxOf ha, Option.map_some]
  · rw [List.getElem?_set_ne hi, List.getElem?_map]
    cases hget : xs[i]? with
    | none => rfl
    | some b =>
        obtain ⟨hlt, rfl⟩ := List.getElem?_eq_some_iff.1 hget
        have hne : xs[i] ≠ a := by
          rintro rfl
          exact hi (hnodup.idxOf_getElem i hlt)
        rw [Option.map_some, Option.map_some, hsame _ hne]

/-- The classes after a definition. -/
theorem classes_define (h : Lawful calls) (hname : c.name ∈ declared calls)
    (hnew : c.name ∉ (defined calls).map (·.name)) :
    (declared calls).map (classOf (calls ++ [.define c])) =
      ((declared calls).map (classOf calls)).set ((declared calls).idxOf c.name)
        { c with isDefined := true } := by
  rw [← classOf_define hnew]
  apply map_eq_set_map h.declared_nodup hname
  intro name hne
  exact classOf_append_of_not_mem (by simpa using hne)

/-- A definition fills the placeholder of its name and registers the fields. -/
theorem tableOf_define (h : Lawful calls) (hname : c.name ∈ declared calls)
    (hnew : c.name ∉ (defined calls).map (·.name)) :
    tableOf (calls ++ [.define c]) =
      { tableOf calls with
        classes := (tableOf calls).classes.set ((declared calls).idxOf c.name)
          { c with isDefined := true }
        fieldIndex := insertFields ((declared calls).idxOf c.name) 0 c.fields
          (tableOf calls).fieldIndex } := by
  have hfields : fieldEntries (calls ++ [.define c]) =
      fieldEntries calls ++ entriesFrom ((declared calls).idxOf c.name) 0 c.fields := by
    simp [fieldEntries]
  simp [tableOf, classes_define h hname hnew, hfields, funcEntries, insertFields_ofEntries]

/-- An addition appends a function and registers it. -/
theorem tableOf_add (calls : List Call) (f : FuncType) :
    tableOf (calls ++ [.add f]) =
      { tableOf calls with
        funcs := (tableOf calls).funcs ++ [f]
        funcIndex := (tableOf calls).funcIndex.insert f.result (added calls).length } := by
  have hclassOf : classOf (calls ++ [.add f]) = classOf calls := by
    funext n
    exact classOf_append_of_not_mem (by simp)
  have hfuncs : funcEntries (calls ++ [.add f]) =
      funcEntries calls ++ [(f.result, (added calls).length)] := by
    simp [funcEntries, List.zipIdx_append]
  simp [tableOf, fieldEntries, hclassOf, hfuncs, TypeIndex.ofEntries_append]

/-! ## What a call does -/

/-- A declaration is accepted once for every name, and it is answered with the next place. -/
theorem declareClass_tableOf (h : Lawful calls) (name : String) :
    (tableOf calls).declareClass name =
      if name ∈ declared calls then .error (.declaredTwice name)
      else .ok (⟨(declared calls).length, name⟩, tableOf (calls ++ [.declare name])) := by
  have hopen : (tableOf calls).isFrozen = false := rfl
  have hlength : (tableOf calls).classes.length = (declared calls).length := List.length_map _
  by_cases hname : name ∈ declared calls
  · simp [declareClass, hopen, classByName?_tableOf, hname]
  · rw [tableOf_declare h hname]
    simp [declareClass, hopen, hlength, classByName?_tableOf, hname]

/-- A definition is accepted once for every declared name, and it is answered with the place of
the declaration. -/
theorem defineClass_tableOf (h : Lawful calls) (c : ClassType) :
    (tableOf calls).defineClass c =
      if c.name ∉ declared calls then .error (.undeclared c.name)
      else if c.name ∈ (defined calls).map (·.name) then .error (.definedTwice c.name)
      else .ok ((declared calls).idxOf c.name, tableOf (calls ++ [.define c])) := by
  have hopen : (tableOf calls).isFrozen = false := rfl
  by_cases hname : c.name ∈ declared calls
  · have hid : (tableOf calls).classByName? c.name = some ((declared calls).idxOf c.name) := by
      rw [classByName?_tableOf, if_pos hname]
    have hget := classes_tableOf hname
    rw [if_neg (not_not_intro hname)]
    by_cases hdefined : c.name ∈ (defined calls).map (·.name)
    · have hknown := isDefined_classOf.2 hdefined
      rw [if_pos hdefined]
      simp [defineClass, hopen, hid, hget, hknown]
    · have hknown : (classOf calls c.name).isDefined = false := by
        rw [← Bool.not_eq_true, isDefined_classOf]
        exact hdefined
      rw [if_neg hdefined, tableOf_define h hname hdefined]
      simp [defineClass, hopen, hid, hget, hknown]
  · simp [defineClass, hopen, classByName?_tableOf, hname]

/-- An addition is accepted once for every qualified name, and it is answered with the next
place. -/
theorem addFunc_tableOf (calls : List Call) (f : FuncType) :
    (tableOf calls).addFunc f =
      if f.qualifiedName ∈ (added calls).map (·.qualifiedName) then
        .error (.addedTwice f.qualifiedName)
      else .ok ((added calls).length, tableOf (calls ++ [.add f])) := by
  have hopen : (tableOf calls).isFrozen = false := rfl
  have hlength : (tableOf calls).funcs.length = (added calls).length := rfl
  have hfree : (tableOf calls).funcByName? f.qualifiedName = none ↔
      f.qualifiedName ∉ (added calls).map (·.qualifiedName) := funcByName?_eq_none_iff
  by_cases hname : f.qualifiedName ∈ (added calls).map (·.qualifiedName)
  · have htaken : ((tableOf calls).funcByName? f.qualifiedName).isSome = true := by
      rw [Option.isSome_iff_ne_none]
      exact fun hnone => hfree.1 hnone hname
    rw [if_pos hname]
    simp [addFunc, hopen, htaken]
  · rw [if_neg hname, tableOf_add]
    simp [addFunc, hopen, hlength, hfree.2 hname]

variable {call : Call}

/-- A call that is accepted is answered and leads to the table of one more call. -/
theorem result_tableOf (h : Lawful calls) (hadmits : Admits calls call) :
    call.result (tableOf calls) = .ok (answerOf calls call, tableOf (calls ++ [call])) := by
  cases call with
  | declare name =>
      have hname : name ∉ declared calls := hadmits
      rw [Call.result, declareClass_tableOf h, if_neg hname]
      rfl
  | define c =>
      obtain ⟨hname, hnew⟩ := hadmits
      rw [Call.result, defineClass_tableOf h, if_neg (not_not_intro hname), if_neg hnew]
      rfl
  | add f =>
      have hname : f.qualifiedName ∉ (added calls).map (·.qualifiedName) := hadmits
      rw [Call.result, addFunc_tableOf, if_neg hname]
      rfl

/-- A call that is not accepted faults. -/
theorem result_tableOf_of_not_admits (h : Lawful calls) (hadmits : ¬ Admits calls call) :
    ∃ fault, call.result (tableOf calls) = .error fault := by
  cases call with
  | declare name =>
      have hname : name ∈ declared calls := not_not.1 hadmits
      rw [Call.result, declareClass_tableOf h, if_pos hname]
      exact ⟨_, rfl⟩
  | define c =>
      rw [Call.result, defineClass_tableOf h]
      by_cases hname : c.name ∈ declared calls
      · have hdefined : c.name ∈ (defined calls).map (·.name) := by
          by_contra hnew
          exact hadmits ⟨hname, hnew⟩
        rw [if_neg (not_not_intro hname), if_pos hdefined]
        exact ⟨_, rfl⟩
      · rw [if_pos hname]
        exact ⟨_, rfl⟩
  | add f =>
      have hname : f.qualifiedName ∈ (added calls).map (·.qualifiedName) := not_not.1 hadmits
      rw [Call.result, addFunc_tableOf, if_pos hname]
      exact ⟨_, rfl⟩

/-- The last of several calls is accepted after the others. -/
theorem lawful_snoc_iff : Lawful (calls ++ [call]) ↔ Lawful calls ∧ Admits calls call := by
  constructor
  · intro h
    generalize heq : calls ++ [call] = all at h
    cases h with
    | nil => simp at heq
    | snoc h hadmits =>
        obtain ⟨rfl, hcall⟩ := List.append_inj' heq rfl
        obtain rfl := List.singleton_inj.1 hcall
        exact ⟨h, hadmits⟩
  · intro ⟨h, hadmits⟩
    exact h.snoc hadmits

theorem build_snoc (calls : List Call) (call : Call) :
    build (calls ++ [call]) = build calls >>= call.apply := by
  simp [build]

/-- Calls build a table exactly if each of them is accepted after those before it, and it is the
table that they leave behind. -/
theorem build_eq_ok_iff {t : SymbolTable} :
    build calls = .ok t ↔ Lawful calls ∧ t = tableOf calls := by
  -- The calls are taken from the last one: it acts on the table that those before it leave.
  induction calls using List.reverseRecOn generalizing t with
  | nil =>
      have hempty : build [] = .ok (tableOf []) := rfl
      rw [hempty, Except.ok.injEq, eq_comm]
      exact (and_iff_right Lawful.nil).symm
  | append_singleton calls call ih =>
      rw [build_snoc, lawful_snoc_iff]
      cases hcalls : build calls with
      | error fault =>
          refine iff_of_false nofun ?_
          rintro ⟨⟨hlawful, _⟩, _⟩
          have hok := ih.2 ⟨hlawful, rfl⟩
          rw [hcalls] at hok
          cases hok
      | ok before =>
          obtain ⟨hlawful, rfl⟩ := ih.1 hcalls
          have hbind : (Except.ok (tableOf calls) >>= call.apply) =
              (call.result (tableOf calls)).map (·.2) := rfl
          rw [hbind, and_iff_right hlawful]
          by_cases hadmits : Admits calls call
          · rw [result_tableOf hlawful hadmits, and_iff_right hadmits, Except.map,
              Except.ok.injEq]
            exact eq_comm
          · obtain ⟨fault, hfault⟩ := result_tableOf_of_not_admits hlawful hadmits
            rw [hfault]
            exact iff_of_false nofun fun h => hadmits h.1

end TypedPhp.SymbolTable
