import TypedPhp.Proofs.SymbolTable.Index
import TypedPhp.SymbolTable.Basic

set_option autoImplicit false

/-!
# Reachable symbol tables

A table is reachable if it is built from the empty one by declarations, definitions, additions and
a freeze. In a reachable table every index entry refers to a function or field of the type under
which it is registered (`SymbolTable.Consistent`), so a look-up in a reachable frozen table finds
functions and fields of the table of identical types (`SymbolTable.Consistent.funcsOf_eq_ok`,
`SymbolTable.Consistent.fieldsOf_eq_ok`).
-/

namespace TypedPhp.SymbolTable

variable {t t' : SymbolTable}

/-! ## Places and names -/

theorem getElem?_append_of_eq_some {α : Type} {xs : List α} {i : Nat} {x : α}
    (h : xs[i]? = some x) (ys : List α) : (xs ++ ys)[i]? = some x := by
  rw [List.getElem?_append_left (List.getElem?_eq_some_iff.1 h).1]
  exact h

/-- An element is read at the index at which it stands, and a read elsewhere faults. -/
theorem elemAt_eq_ok_iff {α : Type} {xs : List α} {i : Nat} {x : α} :
    elemAt xs i = .ok x ↔ xs[i]? = some x := by
  rw [elemAt]
  cases xs[i]? with
  | none => simp
  | some y => simp

theorem findIdx?_eq_none_iff {α : Type} {nameOf : α → String} {xs : List α} {name : String} :
    xs.findIdx? (nameOf · == name) = none ↔ name ∉ xs.map nameOf := by
  rw [List.findIdx?_eq_none_iff, List.mem_map, not_exists]
  simp only [beq_eq_false_iff_ne, not_and, ne_eq]

theorem classByName?_eq_none_iff {name : String} :
    t.classByName? name = none ↔ name ∉ t.classes.map (·.name) :=
  findIdx?_eq_none_iff

theorem funcByName?_eq_none_iff {name : String} :
    t.funcByName? name = none ↔ name ∉ t.funcs.map (·.qualifiedName) :=
  findIdx?_eq_none_iff

/-! ## What each operation does -/

/-- A declaration that succeeds adds a placeholder of a new name. -/
theorem declareClass_eq_ok {name : String} {c : ClassRef}
    (h : t.declareClass name = .ok (c, t')) :
    t.isFrozen = false ∧ t.classByName? name = none ∧ c = ⟨t.classes.length, name⟩ ∧
      t' = { t with classes := t.classes ++ [.placeholder name] } := by
  unfold declareClass at h
  split at h
  · cases h
  · rename_i hfrozen
    split at h
    · cases h
    · rename_i hname
      simp only [Except.ok.injEq, Prod.mk.injEq] at h
      exact ⟨by simpa using hfrozen, by simpa using hname, h.1.symm, h.2.symm⟩

/-- A definition that succeeds fills a placeholder of the same name. -/
theorem defineClass_eq_ok {c : ClassType} {id : Nat} (h : t.defineClass c = .ok (id, t')) :
    t.isFrozen = false ∧ t.classByName? c.name = some id ∧
      (∃ known, t.classes[id]? = some known ∧ known.isDefined = false) ∧
      t' = { t with
        classes := t.classes.set id { c with isDefined := true }
        fieldIndex := insertFields id 0 c.fields t.fieldIndex } := by
  unfold defineClass at h
  split at h
  · cases h
  · rename_i hfrozen
    split at h
    · cases h
    · rename_i i hname
      split at h
      · cases h
      · rename_i known hknown
        split at h
        · cases h
        · rename_i hdefined
          simp only [Except.ok.injEq, Prod.mk.injEq] at h
          obtain ⟨rfl, rfl⟩ := h
          exact ⟨by simpa using hfrozen, hname, ⟨known, hknown, by simpa using hdefined⟩, rfl⟩

/-- An addition that succeeds appends a function of a new qualified name. -/
theorem addFunc_eq_ok {f : FuncType} {id : Nat} (h : t.addFunc f = .ok (id, t')) :
    t.isFrozen = false ∧ t.funcByName? f.qualifiedName = none ∧ id = t.funcs.length ∧
      t' = { t with
        funcs := t.funcs ++ [f]
        funcIndex := t.funcIndex.insert f.result t.funcs.length } := by
  unfold addFunc at h
  split at h
  · cases h
  · rename_i hfrozen
    split at h
    · cases h
    · rename_i hname
      simp only [Except.ok.injEq, Prod.mk.injEq] at h
      exact ⟨by simpa using hfrozen, by simpa using hname, h.1.symm, h.2.symm⟩

/-- A freeze that succeeds puts the indexes in order. -/
theorem freeze_eq_ok (h : t.freeze = .ok t') :
    t.isFrozen = false ∧ t' = { t with
      isFrozen := true
      fieldIndex := t.fieldIndex.freeze
      funcIndex := t.funcIndex.freeze } := by
  unfold freeze at h
  split at h
  · cases h
  · rename_i hfrozen
    simp only [Except.ok.injEq] at h
    exact ⟨by simpa using hfrozen, h.symm⟩

/-! ## Consistency -/

/-- A function of the table with the given result. -/
def HasFunc (t : SymbolTable) (ty : Ty) (id : Nat) : Prop :=
  ∃ f, t.funcs[id]? = some f ∧ f.result = ty

/-- A field of a class of the table with the given type. -/
def HasField (t : SymbolTable) (ty : Ty) (r : FieldRef) : Prop :=
  ∃ c f, t.classes[r.owner]? = some c ∧ c.fields[r.index]? = some f ∧ f.type = ty

/-- The indexes of a table refer to what the table holds, and those of a frozen one are in
order. -/
structure Consistent (t : SymbolTable) : Prop where
  funcs : t.funcIndex.Holds t.HasFunc
  fields : t.fieldIndex.Holds t.HasField
  placeholders : ∀ c ∈ t.classes, c.isDefined = false → c.fields = []
  ordered : t.isFrozen = true →
    TypeIndex.Ordered t.funcIndex.arrays ∧ TypeIndex.Ordered t.fieldIndex.arrays

namespace Consistent

theorem empty : Consistent .empty where
  funcs := .empty
  fields := .empty
  placeholders := by simp [SymbolTable.empty]
  ordered := by simp [SymbolTable.empty]

/-- A declaration keeps a table consistent. -/
theorem declareClass (h : Consistent t) {name : String} {c : ClassRef}
    (hd : t.declareClass name = .ok (c, t')) : Consistent t' := by
  obtain ⟨hfrozen, _, _, rfl⟩ := declareClass_eq_ok hd
  refine ⟨h.funcs, ?_, ?_, ?_⟩
  -- Appending a class moves no other one.
  · apply h.fields.mono
    rintro ty r ⟨d, f, hd, hf, hty⟩
    exact ⟨d, f, getElem?_append_of_eq_some hd _, hf, hty⟩
  · intro d hd
    rcases List.mem_append.1 hd with hd | hd
    · exact h.placeholders d hd
    · obtain rfl := List.mem_singleton.1 hd
      intro _
      rfl
  · intro hf
    exact absurd hf (by simp [hfrozen])

/-- The fields of a class, from a place on, are registered under their types. -/
theorem holds_insertFields {R : Ty → FieldRef → Prop} {owner : Nat} :
    ∀ {fs : List Field} {index : Nat} {i : TypeIndex FieldRef}, i.Holds R →
      (∀ k f, fs[k]? = some f → R f.type ⟨owner, index + k⟩) →
      (insertFields owner index fs i).Holds R
  | [], _, _, hi, _ => hi
  | f :: fs, index, i, hi, hR => by
      rw [insertFields]
      apply holds_insertFields
      · split
        · exact hi
        · exact hi.insert (hR 0 f rfl)
      · intro k g hg
        have hnext := hR (k + 1) g hg
        rwa [Nat.add_right_comm, Nat.add_assoc]

/-- A definition keeps a table consistent: nothing is registered under a placeholder. -/
theorem defineClass (h : Consistent t) {c : ClassType} {id : Nat}
    (hd : t.defineClass c = .ok (id, t')) : Consistent t' := by
  obtain ⟨hfrozen, _, ⟨known, hknown, hundefined⟩, rfl⟩ := defineClass_eq_ok hd
  obtain ⟨hlt, -⟩ := List.getElem?_eq_some_iff.1 hknown
  refine ⟨h.funcs, ?_, ?_, ?_⟩
  · apply holds_insertFields
    · apply h.fields.mono
      rintro ty r ⟨d, f, hget, hf, hty⟩
      refine ⟨d, f, ?_, hf, hty⟩
      -- An entry under the class that is filled now would be one for a field of its placeholder,
      -- which has none.
      have hne : id ≠ r.owner := by
        rintro rfl
        obtain rfl : known = d := by simpa [hknown] using hget
        rw [h.placeholders known (List.mem_of_getElem? hknown) hundefined] at hf
        cases hf
      rw [List.getElem?_set_ne hne]
      exact hget
    · intro k f hf
      refine ⟨{ c with isDefined := true }, f, ?_, by simpa using hf, rfl⟩
      simp [hlt]
  · intro d hd hdu
    rcases List.mem_or_eq_of_mem_set hd with hd | rfl
    · exact h.placeholders d hd hdu
    · cases hdu
  · intro hf
    exact absurd hf (by simp [hfrozen])

/-- An addition keeps a table consistent. -/
theorem addFunc (h : Consistent t) {f : FuncType} {id : Nat}
    (ha : t.addFunc f = .ok (id, t')) : Consistent t' := by
  obtain ⟨hfrozen, _, _, rfl⟩ := addFunc_eq_ok ha
  refine ⟨?_, h.fields, h.placeholders, ?_⟩
  · apply TypeIndex.Holds.insert
    · apply h.funcs.mono
      rintro ty k ⟨g, hg, hty⟩
      exact ⟨g, getElem?_append_of_eq_some hg _, hty⟩
    · exact ⟨f, by simp, rfl⟩
  · intro hf
    exact absurd hf (by simp [hfrozen])

/-- A freeze keeps a table consistent. -/
theorem freeze (h : Consistent t) (hf : t.freeze = .ok t') : Consistent t' := by
  obtain ⟨_, rfl⟩ := freeze_eq_ok hf
  -- Only here the order is needed, and only here it is made.
  refine ⟨h.funcs.freeze, h.fields.freeze, h.placeholders, ?_⟩
  intro _
  exact ⟨TypeIndex.ordered_mergeSort _, TypeIndex.ordered_mergeSort _⟩

end Consistent

/-! ## Reachable tables -/

/-- A table that is built from the empty one by the operations of tables. -/
inductive Reachable : SymbolTable → Prop where
  | empty : Reachable .empty
  | declareClass {t t' : SymbolTable} {name : String} {c : ClassRef} :
      Reachable t → t.declareClass name = .ok (c, t') → Reachable t'
  | defineClass {t t' : SymbolTable} {c : ClassType} {id : Nat} :
      Reachable t → t.defineClass c = .ok (id, t') → Reachable t'
  | addFunc {t t' : SymbolTable} {f : FuncType} {id : Nat} :
      Reachable t → t.addFunc f = .ok (id, t') → Reachable t'
  | freeze {t t' : SymbolTable} : Reachable t → t.freeze = .ok t' → Reachable t'

/-- A reachable table is consistent. -/
theorem Reachable.consistent (h : Reachable t) : Consistent t := by
  induction h with
  | empty => exact .empty
  | declareClass _ hd ih => exact ih.declareClass hd
  | defineClass _ hd ih => exact ih.defineClass hd
  | addFunc _ ha ih => exact ih.addFunc ha
  | freeze _ hf ih => exact ih.freeze hf

/-! ## Look-ups in a frozen table -/

theorem lookup_eq_ok {α : Type} (hf : t.isFrozen = true) (i : TypeIndex α) (ty : Ty) :
    t.lookup i ty = .ok (i.find ty) := by
  cases ty <;> simp [lookup, hf]

/-- A look-up of functions finds functions of the table whose result is exactly the type. -/
theorem Consistent.funcsOf_eq_ok (h : Consistent t) (hf : t.isFrozen = true) (ty : Ty) :
    ∃ ids, t.funcsOf ty = .ok ids ∧
      ∀ id ∈ ids, ∃ f, t.funcs[id]? = some f ∧ f.result.identical ty = true := by
  refine ⟨_, lookup_eq_ok hf _ ty, ?_⟩
  intro id hid
  obtain ⟨ty', hty, f, hget, rfl⟩ := h.funcs.find (h.ordered hf).1 hid
  exact ⟨f, hget, hty⟩

/-- A look-up of fields finds fields of classes of the table of exactly the type. -/
theorem Consistent.fieldsOf_eq_ok (h : Consistent t) (hf : t.isFrozen = true) (ty : Ty) :
    ∃ refs, t.fieldsOf ty = .ok refs ∧
      ∀ r ∈ refs, ∃ c f, t.classes[r.owner]? = some c ∧ c.fields[r.index]? = some f ∧
        f.type.identical ty = true := by
  refine ⟨_, lookup_eq_ok hf _ ty, ?_⟩
  intro r hr
  obtain ⟨ty', hty, c, f, hc, hget, rfl⟩ := h.fields.find (h.ordered hf).2 hr
  exact ⟨c, f, hc, hget, hty⟩

end TypedPhp.SymbolTable
