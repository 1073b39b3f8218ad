import TypedPhp.Proofs.SymbolTable.Calls

set_option autoImplicit false

/-!
# Look-up by type

A table that calls have built is frozen without a fault, and after that a look-up is exact
(`SymbolTable.lookup_exact`). Under a type that is indexed it finds all functions whose result is
identical to the type, in the order of their additions, and all fields of identical types, in the
order of the definitions and of the places in the classes. Under the other types it finds nothing.
-/

namespace TypedPhp.SymbolTable

variable {calls : List Call}

/-- The fields of all classes that are defined, each with the reference to it. -/
def definedFields (calls : List Call) : List (Field × FieldRef) :=
  (defined calls).flatMap fun c =>
    c.fields.zipIdx.map fun p => (p.1, ⟨(declared calls).idxOf c.name, p.2⟩)

/-- The places of the functions whose result is identical to a type. -/
def funcsWith (calls : List Call) (ty : Ty) : List Nat :=
  ((added calls).zipIdx.filter (·.1.result.identical ty)).map (·.2)

/-- The references to the fields whose type is identical to a given one. -/
def fieldsWith (calls : List Call) (ty : Ty) : List FieldRef :=
  ((definedFields calls).filter (·.1.type.identical ty)).map (·.2)

/-! ## Places -/

theorem funcAt_frozenOf {id : Nat} {f : FuncType} :
    (frozenOf calls).funcAt id = .ok f ↔ (f, id) ∈ (added calls).zipIdx := by
  rw [funcAt, elemAt_eq_ok_iff, List.mem_zipIdx_iff_getElem?]
  rfl

/-- The fields of the classes that are defined. -/
theorem mem_definedFields {f : Field} {r : FieldRef} :
    (f, r) ∈ definedFields calls ↔
      ∃ c ∈ defined calls, (declared calls).idxOf c.name = r.owner ∧
        c.fields[r.index]? = some f := by
  constructor
  · intro h
    obtain ⟨c, hc, h⟩ := List.mem_flatMap.1 h
    obtain ⟨p, hp, heq⟩ := List.mem_map.1 h
    obtain ⟨rfl, rfl⟩ := Prod.mk.inj heq
    exact ⟨c, hc, rfl, List.mem_zipIdx_iff_getElem?.1 hp⟩
  · rintro ⟨c, hc, howner, hf⟩
    refine List.mem_flatMap.2 ⟨c, hc, List.mem_map.2 ⟨(f, r.index), ?_, ?_⟩⟩
    · exact List.mem_zipIdx_iff_getElem?.2 hf
    · rw [howner]

/-- A field is read off the class of its reference. -/
theorem fieldAt_eq_ok_iff {t : SymbolTable} {f : Field} {r : FieldRef} :
    t.fieldAt r = .ok f ↔ ∃ c, t.classes[r.owner]? = some c ∧ c.fields[r.index]? = some f := by
  rw [fieldAt, classAt, elemAt]
  cases t.classes[r.owner]? with
  | none => simp [bind, Except.bind]
  | some c => simpa [bind, Except.bind] using elemAt_eq_ok_iff

/-- The fields of the table are those of the classes that are defined: a placeholder has
none. -/
theorem fieldAt_frozenOf (h : Lawful calls) {f : Field} {r : FieldRef} :
    (frozenOf calls).fieldAt r = .ok f ↔ (f, r) ∈ definedFields calls := by
  rw [fieldAt_eq_ok_iff, mem_definedFields]
  constructor
  · rintro ⟨known, hget, hf⟩
    have hclasses : (frozenOf calls).classes = (declared calls).map (classOf calls) := rfl
    rw [hclasses, List.getElem?_map, Option.map_eq_some_iff] at hget
    obtain ⟨name, hname, rfl⟩ := hget
    by_cases hdefined : name ∈ (defined calls).map (·.name)
    · obtain ⟨c, hc, rfl⟩ := List.mem_map.1 hdefined
      rw [h.classOf_of_mem hc] at hf
      obtain ⟨hlt, heq⟩ := List.getElem?_eq_some_iff.1 hname
      exact ⟨c, hc, heq ▸ h.declared_nodup.idxOf_getElem r.owner hlt, hf⟩
    · rw [classOf_of_not_mem hdefined] at hf
      cases hf
  · rintro ⟨c, hc, howner, hf⟩
    refine ⟨{ c with isDefined := true }, ?_, hf⟩
    rw [← howner, ← h.classOf_of_mem hc]
    exact classes_tableOf (h.declared_of_defined c hc)

/-- The references to the fields are different from one another. -/
theorem nodup_definedFields (h : Lawful calls) : ((definedFields calls).map (·.2)).Nodup := by
  have hrefs : (definedFields calls).map (·.2) =
      (defined calls).flatMap fun c =>
        (List.range' 0 c.fields.length).map (FieldRef.mk ((declared calls).idxOf c.name)) := by
    rw [definedFields, List.map_flatMap]
    apply List.flatMap_congr
    intro c _
    rw [← List.zipIdx_map_snd 0 c.fields, List.map_map, List.map_map]
    rfl
  rw [hrefs, List.nodup_flatMap]
  constructor
  · intro c _
    apply List.Nodup.map
    · intro i j hij
      exact (FieldRef.mk.inj hij).2
    · exact List.nodup_range'
  · -- Two classes that are defined stand in different places.
    have hnames := h.defined_nodup
    rw [List.Nodup, List.pairwise_map] at hnames
    apply hnames.imp_of_mem
    intro c d hc hd hne r hrc hrd
    obtain ⟨i, _, rfl⟩ := List.mem_map.1 hrc
    obtain ⟨j, _, heq⟩ := List.mem_map.1 hrd
    have howner := (FieldRef.mk.inj heq).1
    exact hne ((List.idxOf_inj (h.declared_of_defined d hd)).1 howner).symm

theorem nodup_funcsWith (calls : List Call) (ty : Ty) : (funcsWith calls ty).Nodup := by
  apply List.Nodup.sublist (List.filter_sublist.map _)
  rw [List.zipIdx_map_snd]
  exact List.nodup_range'

theorem nodup_fieldsWith (h : Lawful calls) (ty : Ty) : (fieldsWith calls ty).Nodup :=
  (nodup_definedFields h).sublist (List.filter_sublist.map _)

/-! ## What is found -/

/-- A type that is identical to another is `void` together with it. -/
theorem isVoid_of_identical {x y : Ty} (h : x.identical y = true) : x.isVoid = y.isVoid := by
  cases x with
  | scalar k =>
      cases y with
      | scalar l =>
          obtain rfl : k = l := by simpa [Ty.identical] using h
          rfl
      | _ => simp [Ty.identical] at h
  | _ =>
      cases y with
      | scalar l => simp [Ty.identical] at h
      | _ => rfl

theorem matching_funcEntries (calls : List Call) (ty : Ty) :
    TypeIndex.matching ty (funcEntries calls) = funcsWith calls ty := by
  simp [TypeIndex.matching, funcEntries, funcsWith, List.filter_map, Function.comp_def]

/-- The entries of the fields are those of all fields but the ones of type `void`. -/
theorem fieldEntries_eq (calls : List Call) :
    fieldEntries calls =
      ((definedFields calls).filter fun p => !p.1.type.isVoid).map fun p => (p.1.type, p.2) := by
  rw [fieldEntries, definedFields, List.filter_flatMap, List.map_flatMap]
  apply List.flatMap_congr
  intro c _
  rw [entriesFrom, List.filter_map, List.map_map]
  rfl

/-- What is registered under the types of the fields: all fields of a type other than `void`. -/
theorem matching_fieldEntries (calls : List Call) (ty : Ty) :
    TypeIndex.matching ty (fieldEntries calls) =
      if ty.isVoid then [] else fieldsWith calls ty := by
  have hmatching : TypeIndex.matching ty (fieldEntries calls) =
      ((definedFields calls).filter fun p => p.1.type.identical ty && !p.1.type.isVoid).map
        (·.2) := by
    simp [TypeIndex.matching, fieldEntries_eq, List.filter_map, Function.comp_def]
  rw [hmatching, fieldsWith]
  -- Fields of type `void` are not registered, so a look-up for that type finds nothing.
  by_cases hvoid : ty.isVoid = true
  · rw [if_pos hvoid, List.map_eq_nil_iff, List.filter_eq_nil_iff]
    intro p _ hp
    obtain ⟨hid, hkept⟩ := Bool.and_eq_true_iff.1 hp
    rw [isVoid_of_identical hid, hvoid] at hkept
    cases hkept
  · rw [if_neg hvoid]
    congr 1
    apply List.filter_congr
    intro p _
    cases hid : p.1.type.identical ty with
    | false => rfl
    | true =>
        rw [isVoid_of_identical hid]
        simp [hvoid]

/-- A look-up of functions in the table that calls and a freeze leave behind. -/
theorem funcsOf_frozenOf (calls : List Call) (ty : Ty) :
    (frozenOf calls).funcsOf ty =
      .ok (if TypeIndex.isKey ty then funcsWith calls ty else []) := by
  have hkeeps := (TypeIndex.Keeps.ofEntries (funcEntries calls)).freeze
  have hfind := hkeeps.find (TypeIndex.ordered_mergeSort _) ty
  rw [matching_funcEntries] at hfind
  rw [← hfind]
  exact lookup_eq_ok rfl _ ty

/-- A look-up of fields in the table that calls and a freeze leave behind. -/
theorem fieldsOf_frozenOf (calls : List Call) (ty : Ty) :
    (frozenOf calls).fieldsOf ty =
      .ok (if TypeIndex.isKey ty && !ty.isVoid then fieldsWith calls ty else []) := by
  have hkeeps := (TypeIndex.Keeps.ofEntries (fieldEntries calls)).freeze
  have hfind := hkeeps.find (TypeIndex.ordered_mergeSort _) ty
  rw [matching_fieldEntries] at hfind
  have hfound : (frozenOf calls).fieldsOf ty = .ok ((frozenOf calls).fieldIndex.find ty) :=
    lookup_eq_ok rfl _ ty
  rw [hfound]
  refine congrArg Except.ok (hfind.trans ?_)
  cases ty.isVoid <;> simp

/-- Look-up by type is exact after a freeze. A table that calls build can be frozen. Then a
place holds a function or a field exactly if the calls put it there; a look-up under `void`, under a
kind with literals or under an array type finds all functions of an identical result in the order of
their additions; a look-up under one of these types other than `void` finds all fields of an
identical type in the order of the definitions; each is found once, and nothing is found under any
other type. -/
theorem lookup_exact {t : SymbolTable} (h : build calls = .ok t) :
    ∃ frozen, t.freeze = .ok frozen ∧
      (∀ id f, frozen.funcAt id = .ok f ↔ (f, id) ∈ (added calls).zipIdx) ∧
      (∀ r f, frozen.fieldAt r = .ok f ↔ (f, r) ∈ definedFields calls) ∧
      ∀ ty,
        frozen.funcsOf ty =
          .ok (if TypeIndex.isKey ty then funcsWith calls ty else []) ∧
        frozen.fieldsOf ty =
          .ok (if TypeIndex.isKey ty && !ty.isVoid then fieldsWith calls ty else []) ∧
        (funcsWith calls ty).Nodup ∧ (fieldsWith calls ty).Nodup := by
  obtain ⟨hlawful, rfl⟩ := build_eq_ok_iff.1 h
  refine ⟨frozenOf calls, freeze_tableOf calls, ?_, ?_, ?_⟩
  · intro id f
    exact funcAt_frozenOf
  · intro r f
    exact fieldAt_frozenOf hlawful
  · intro ty
    exact ⟨funcsOf_frozenOf calls ty, fieldsOf_frozenOf calls ty, nodup_funcsWith calls ty,
      nodup_fieldsWith hlawful ty⟩

/-- An element type that is made of types of all kinds. -/
def nestedElem : Ty :=
  .array (.tuple
    [.enum ⟨.int, [.int 1, .int 2]⟩, .nullable (.object ⟨0, "A"⟩), .union .int .string])

/-- Two classes that are not defined in the order of their declarations, and functions of array and
other results. -/
def mixedCalls : List Call :=
  [.declare "A", .declare "B",
    .define (.ofMembers "B"
      [⟨"items", .array nestedElem, none, .publicMember⟩, ⟨"size", .int, none, .publicMember⟩] []),
    .add (.function "f" [] (.array nestedElem)),
    .add (.function "g" [] (.array .int)),
    .define (.ofMembers "A"
      [⟨"size", .int, none, .publicMember⟩, ⟨"rest", .array nestedElem, none, .privateMember⟩] []),
    .add (.function "h" [] (.array nestedElem)),
    .add (.function "m" [] .mixed)]

/-- A look-up of an array type with nested elements in a table of two classes and four
functions. -/
theorem lookup_exact_nested :
    ∃ t frozen, build mixedCalls = .ok t ∧ t.freeze = .ok frozen ∧
      frozen.funcsOf (.array nestedElem) = .ok [0, 2] ∧
      frozen.fieldsOf (.array nestedElem) = .ok [⟨1, 0⟩, ⟨0, 1⟩] ∧
      frozen.fieldAt ⟨0, 1⟩ = .ok ⟨"rest", .array nestedElem, none, .privateMember⟩ ∧
      frozen.funcsOf .mixed = .ok [] := by
  have hbuild : build mixedCalls = .ok (tableOf mixedCalls) := rfl
  obtain ⟨frozen, hfreeze, -, hfields, hlookup⟩ := lookup_exact hbuild
  obtain ⟨hfuncsOf, hfieldsOf, -, -⟩ := hlookup (.array nestedElem)
  obtain ⟨hmixed, -⟩ := hlookup .mixed
  refine ⟨tableOf mixedCalls, frozen, hbuild, hfreeze, hfuncsOf, hfieldsOf, ?_, hmixed⟩
  rw [hfields]
  exact List.mem_of_getElem? (show (definedFields mixedCalls)[3]? = some _ from rfl)

end TypedPhp.SymbolTable
