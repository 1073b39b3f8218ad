import Mathlib.Data.List.Nodup
import TypedPhp.Proofs.Decl.Signatures
import TypedPhp.Proofs.Names
import TypedPhp.Proofs.Runs.Building

set_option autoImplicit false

/-!
# Settling of signatures

Classes are declared and defined, functions are registered, and nothing of it fails: every name is
new when it is added. Names of classes, methods and library functions hold their numbers, so they
differ from each other, and they differ from the names of the built-in functions. What is settled in
the end is described by `Settled`.
-/

namespace TypedPhp

/-! ## Names -/

/-- The name of the class of number `i`. -/
def className (i : Nat) : String := "C" ++ toString i

/-- The reference to the class of number `i`. -/
def ClassRef.numbered (i : Nat) : ClassRef := ⟨i, className i⟩

/-- The qualified name of the method at place `k` of the class of number `i`. -/
def memberName (i k : Nat) : String := className i ++ "::" ++ methodName k

/-- The name of the function at place `k` of the library file of number `i`. -/
def libFuncName (i k : Nat) : String := "lib" ++ toString i ++ "_f" ++ toString k

/-- The name of a method determines its class and its place. -/
theorem memberName_inj {i j k l : Nat} (h : memberName i k = memberName j l) : i = j ∧ k = l := by
  -- The number of the class ends before the colons, so it can be read back first.
  have hassoc : ∀ i k, memberName i k = "C" ++ toString i ++ ("::" ++ methodName k) :=
    fun _ _ => String.append_assoc
  rw [hassoc, hassoc] at h
  obtain ⟨hi, hrest⟩ := numbered_append_inj (by simp [String.toList_append])
    (by simp [String.toList_append]) h
  exact ⟨hi, numbered_inj ((String.append_right_inj _).1 hrest)⟩

/-- The name of a library function determines its file and its place. -/
theorem libFuncName_inj {i j k l : Nat} (h : libFuncName i k = libFuncName j l) :
    i = j ∧ k = l := by
  have hassoc : ∀ i k, libFuncName i k = "lib" ++ toString i ++ ("_f" ++ toString k) :=
    fun _ _ => String.append_assoc
  rw [hassoc, hassoc] at h
  obtain ⟨hi, hrest⟩ := numbered_append_inj (by simp [String.toList_append])
    (by simp [String.toList_append]) h
  exact ⟨hi, numbered_inj hrest⟩

theorem memberName_ne_libFuncName (i j k l : Nat) : memberName i k ≠ libFuncName j l := by
  apply ne_of_head
  simp [memberName, className, libFuncName, String.toList_append]

/-- No built-in function has the name of a method. -/
theorem memberName_ne_builtin (i k : Nat) :
    ∀ f ∈ Catalog.builtins, f.qualifiedName ≠ memberName i k := by
  -- Methods are qualified by a class, and no built-in function begins like one.
  have hhead : ∀ f ∈ Catalog.builtins, f.qualifiedName.toList.head? ≠ some 'C' := by decide
  intro f hf
  apply ne_of_head
  have hmember : (memberName i k).toList.head? = some 'C' := by
    simp [memberName, className, String.toList_append]
  rw [hmember]
  exact hhead f hf

/-- No built-in function has the name of a library function. -/
theorem libFuncName_ne_builtin (i k : Nat) :
    ∀ f ∈ Catalog.builtins, f.qualifiedName ≠ libFuncName i k := by
  have hstart : ∀ f ∈ Catalog.builtins, f.qualifiedName.toList.take 3 ≠ "lib".toList := by decide
  intro f hf heq
  apply hstart f hf
  rw [heq]
  simp [libFuncName, String.toList_append]

theorem nodup_builtins : (Catalog.builtins.map (·.qualifiedName)).Nodup := by decide

/-- What is named by a numbering has one of its names. -/
theorem exists_name_of_map_eq {α : Type} {name : α → String} {numbered : Nat → String} {xs : List α}
    {n : Nat} (h : xs.map name = (List.range n).map numbered) :
    ∀ x ∈ xs, ∃ k, name x = numbered k := by
  intro x hx
  have hmem := List.mem_map_of_mem (f := name) hx
  rw [h] at hmem
  obtain ⟨k, -, hk⟩ := List.mem_map.1 hmem
  exact ⟨k, hk.symm⟩

theorem nodup_of_map_eq {α : Type} {name : α → String} {numbered : Nat → String} {xs : List α}
    {n : Nat} (h : xs.map name = (List.range n).map numbered)
    (hinj : ∀ k l, numbered k = numbered l → k = l) : (xs.map name).Nodup := by
  rw [h]
  exact List.Nodup.map (fun k l => hinj k l) List.nodup_range

/-! ## States -/

/-- Signatures are being settled: no frame is open, and the table can still be changed. -/
structure Settling {ρ : Type} (config : Config) (g : Generator ρ) : Prop where
  config : g.config = config
  scope : g.scope = .empty
  isOpen : g.symbols.isFrozen = false
  reachable : g.symbols.Reachable

namespace SymbolTable

variable {t : SymbolTable}

/-- A function of a new name is added. -/
theorem addFunc_of_new {f : FuncType} (hopen : t.isFrozen = false)
    (hnew : f.qualifiedName ∉ t.funcs.map (·.qualifiedName)) :
    ∃ t', t.addFunc f = .ok (t.funcs.length, t') ∧ t'.funcs = t.funcs ++ [f] ∧
      t'.classes = t.classes ∧ t'.isFrozen = false := by
  have hnone : t.funcByName? f.qualifiedName = none := funcByName?_eq_none_iff.2 hnew
  refine ⟨{ t with
    funcs := t.funcs ++ [f]
    funcIndex := t.funcIndex.insert f.result t.funcs.length }, ?_, rfl, rfl, hopen⟩
  simp [addFunc, hopen, hnone]

/-- A class of a new name is declared. -/
theorem declareClass_of_new {name : String} (hopen : t.isFrozen = false)
    (hnew : name ∉ t.classes.map (·.name)) :
    t.declareClass name =
      .ok (⟨t.classes.length, name⟩, { t with classes := t.classes ++ [.placeholder name] }) := by
  have hnone : t.classByName? name = none := classByName?_eq_none_iff.2 hnew
  simp [declareClass, hopen, hnone]

/-- Where the classes are numbered, a class is found under its number. -/
theorem classByName?_of_numbered {n i : Nat}
    (h : t.classNames = (List.range n).map className) (hi : i < n) :
    t.classByName? (className i) = some i := by
  have hlen : t.classes.length = n := by
    simpa [classNames] using congrArg List.length h
  have hname : ∀ j (hj : j < t.classes.length), t.classes[j].name = className j := by
    intro j hj
    have hget := congrArg (·[j]?) h
    simpa [classNames, hj, hlen ▸ hj] using hget
  rw [classByName?, List.findIdx?_eq_some_iff_getElem]
  -- The class is the first of its name: all before it have lesser numbers.
  refine ⟨hlen ▸ hi, by simp [hname], ?_⟩
  intro j hj
  have hne : className j ≠ className i := by
    intro heq
    exact absurd (numbered_inj heq) (Nat.ne_of_lt hj)
  rw [hname]
  simpa using hne

/-- A definition under its own name keeps the names of the classes. -/
theorem names_set {i : Nat} {type : ClassType} (h : t.classNames[i]? = some type.name) :
    (t.classes.set i type).map (·.name) = t.classNames := by
  obtain ⟨hi, hget⟩ := List.getElem?_eq_some_iff.1 h
  rw [List.map_set, ← hget]
  exact List.set_getElem_self hi

/-- A declared class is not defined yet. -/
def Pending (t : SymbolTable) (i : Nat) : Prop :=
  ∃ known, t.classes[i]? = some known ∧ known.isDefined = false

/-- A class is defined as one that is drawn for its number, after those of lesser numbers. -/
def Defines (t : SymbolTable) (i : Nat) : Prop :=
  ∃ type : ClassType,
    type.Drawn t.classNames ((List.range i).map .numbered) (.numbered i) ∧
      t.classes[i]? = some { type with isDefined := true }

/-- The methods of the class of a number. -/
def methodsAt (t : SymbolTable) (i : Nat) : List FuncType := (t.classes[i]?).elim [] (·.methods)

/-- The methods of the classes of all numbers are those of all classes, in their order. -/
theorem methodsAt_range (t : SymbolTable) :
    (List.range t.classes.length).flatMap t.methodsAt = t.classes.flatMap (·.methods) := by
  have hall : (List.range t.classes.length).map t.methodsAt = t.classes.map (·.methods) := by
    refine List.ext_getElem (by simp) fun i hi hi' => ?_
    rw [List.length_map] at hi'
    simp [methodsAt, hi']
  rw [List.flatMap_def, hall, List.flatMap_def]

/-- A method of a class of the table. -/
def HasMethod (t : SymbolTable) (f : FuncType) : Prop :=
  ∃ i type, f.owner = some (.numbered i) ∧ t.classes[i]? = some type ∧ f ∈ type.methods

section SameClasses

variable {t t' : SymbolTable} (h : t'.classes = t.classes)
include h

theorem Defines.congr {i : Nat} (hi : t.Defines i) : t'.Defines i := by
  obtain ⟨type, hdrawn, hget⟩ := hi
  refine ⟨type, ?_, ?_⟩
  · rw [classNames_congr h]
    exact hdrawn
  · rw [h]
    exact hget

theorem HasMethod.congr {f : FuncType} (hf : t.HasMethod f) : t'.HasMethod f := by
  obtain ⟨i, type, howner, hget, hmem⟩ := hf
  refine ⟨i, type, howner, ?_, hmem⟩
  rw [h]
  exact hget

end SameClasses

end SymbolTable

/-! ## Functions and methods -/

/-- The functions of the library file of number `i` are drawn, and they are numbered. -/
structure LibraryDrawn (known : List String) (i : Nat) (fs : List FuncType) : Prop where
  drawn : ∀ f ∈ fs, f.Drawn known ∧ f.owner = none
  names : ∃ n, fs.map (·.name) = (List.range n).map (libFuncName i)

/-- The qualified names of the functions of a library file are their names. -/
theorem LibraryDrawn.qualifiedNames {known : List String} {i : Nat} {fs : List FuncType}
    (h : LibraryDrawn known i fs) :
    ∃ n, fs.map (·.qualifiedName) = (List.range n).map (libFuncName i) := by
  obtain ⟨n, hn⟩ := h.names
  have hfree : ∀ f ∈ fs, f.qualifiedName = f.name := by
    intro f hf
    simp [FuncType.qualifiedName, (h.drawn f hf).2]
  refine ⟨n, ?_⟩
  rw [List.map_congr_left hfree]
  exact hn

/-- The methods of the classes of some numbers: each is drawn for one of them and known to the
table, and their names differ. -/
structure MethodsOf (t : SymbolTable) (ids : List Nat) (methods : List FuncType) : Prop where
  drawn : ∀ m ∈ methods, m.Drawn t.classNames
  known : ∀ m ∈ methods, t.HasMethod m
  names : ∀ m ∈ methods, ∃ i ∈ ids, ∃ k, m.qualifiedName = memberName i k
  distinct : (methods.map (·.qualifiedName)).Nodup

/-- The methods of a class that is drawn are named after the class and their places. -/
theorem ClassType.Drawn.qualifiedNames {known : List String} {earlier : List ClassRef} {i : Nat}
    {type : ClassType} (h : type.Drawn known earlier (.numbered i)) :
    ∃ n, type.methods.map (·.qualifiedName) = (List.range n).map (memberName i) := by
  obtain ⟨n, hn⟩ := h.names
  refine ⟨n, ?_⟩
  have hqualified : ∀ m ∈ type.methods, m.qualifiedName = className i ++ "::" ++ m.name := by
    intro m hm
    simp [FuncType.qualifiedName, (h.methods m hm).2, ClassRef.numbered]
  rw [List.map_congr_left hqualified]
  have hmap := congrArg (List.map fun name => className i ++ "::" ++ name) hn
  rw [List.map_map, List.map_map] at hmap
  exact hmap

/-- The methods of a class and those of other classes have different names. -/
theorem MethodsOf.cons {t : SymbolTable} {earlier : List ClassRef} {ids : List Nat} {i : Nat}
    {type : ClassType} {methods : List FuncType}
    (hdrawn : type.Drawn t.classNames earlier (.numbered i))
    (hget : t.classes[i]? = some { type with isDefined := true }) (hi : i ∉ ids)
    (h : MethodsOf t ids methods) : MethodsOf t (i :: ids) (type.methods ++ methods) := by
  obtain ⟨n, hn⟩ := hdrawn.qualifiedNames
  have hown := exists_name_of_map_eq hn
  refine ⟨?_, ?_, ?_, ?_⟩
  · intro m hm
    rcases List.mem_append.1 hm with hm | hm
    · exact (hdrawn.methods m hm).1
    · exact h.drawn m hm
  · intro m hm
    rcases List.mem_append.1 hm with hm | hm
    · exact ⟨i, _, (hdrawn.methods m hm).2, hget, hm⟩
    · exact h.known m hm
  · intro m hm
    rcases List.mem_append.1 hm with hm | hm
    · obtain ⟨k, hk⟩ := hown m hm
      exact ⟨i, List.mem_cons_self, k, hk⟩
    · obtain ⟨j, hj, k, hk⟩ := h.names m hm
      exact ⟨j, List.mem_cons_of_mem i hj, k, hk⟩
  · rw [List.map_append, List.nodup_append]
    refine ⟨nodup_of_map_eq hn fun k l hkl => (memberName_inj hkl).2, h.distinct, ?_⟩
    -- A qualified name begins with the name of its class, so the numbers of the classes differ.
    · rintro x hx y hy rfl
      obtain ⟨m, hm, rfl⟩ := List.mem_map.1 hx
      obtain ⟨m', hm', heq⟩ := List.mem_map.1 hy
      obtain ⟨k, hk⟩ := hown m hm
      obtain ⟨j, hj, k', hk'⟩ := h.names m' hm'
      rw [hk, hk'] at heq
      apply hi
      rw [← (memberName_inj heq).1]
      exact hj

namespace Build

variable {ρ : Type} {E : Fault → Prop} {config : Config} {g : Generator ρ}

/-- Functions of new names are registered. -/
theorem register_runs : ∀ {fs : List FuncType} {g : Generator ρ}, Settling config g →
    ((g.symbols.funcs ++ fs).map (·.qualifiedName)).Nodup →
    Runs E (register fs) g fun _ g' => Settling config g' ∧
      g'.symbols.funcs = g.symbols.funcs ++ fs ∧ g'.symbols.classes = g.symbols.classes
  | [], g, hg, _ => Runs.pure ⟨hg, by simp, rfl⟩
  | f :: fs, g, hg, hnames => by
      have hnew : f.qualifiedName ∉ g.symbols.funcs.map (·.qualifiedName) := by
        rw [List.map_append, List.nodup_append] at hnames
        intro hmem
        exact hnames.2.2 _ hmem _ (by simp) rfl
      obtain ⟨t, hadd, hfuncs, hclasses, hopen⟩ := SymbolTable.addFunc_of_new hg.isOpen hnew
      have ht : Settling config { g with symbols := t } :=
        ⟨hg.config, hg.scope, hopen, .addFunc hg.reachable hadd⟩
      have hnames' : ((t.funcs ++ fs).map (·.qualifiedName)).Nodup := by
        rw [hfuncs]
        simpa using hnames
      have hcons : register (f :: fs) = (do
          (do
            let _ ← modifySymbols (·.addFunc f))
          register fs : Build ρ Unit) := rfl
      rw [hcons]
      refine Runs.bind (Runs.bind (modifySymbols_runs hadd (Runs.pure ?_)))
      refine (register_runs ht hnames').mono fun _ g' hg' => ?_
      obtain ⟨hsettling, hf, hc⟩ := hg'
      refine ⟨hsettling, ?_, hc.trans hclasses⟩
      rw [hf, hfuncs]
      simp

/-- A number in a list of consecutive ones comes after all lesser ones. -/
theorem range_eq_append_cons {n i : Nat} {done rest : List Nat}
    (h : List.range n = done ++ i :: rest) : i < n ∧ done = List.range i := by
  have hdone : done.length < n := by
    have hlen := congrArg List.length h
    simp only [List.length_range, List.length_append, List.length_cons] at hlen
    omega
  have hi : done.length = i := by
    have hget := congrArg (·[done.length]?) h
    simpa [hdone] using hget
  subst hi
  refine ⟨hdone, ?_⟩
  have htake := congrArg (List.take done.length) h
  rw [List.take_left, List.take_range, Nat.min_eq_left (Nat.le_of_lt hdone)] at htake
  exact htake.symm

/-- The classes of a program are declared. -/
theorem declareClasses_runs (hg : Settling config g) (hempty : g.symbols.classes = []) (n : Nat) :
    Runs E (declareClasses n) g fun cs g' => Settling config g' ∧
      cs = (List.range n).map .numbered ∧
      g'.symbols.classes = (List.range n).map (fun i => .placeholder (className i)) ∧
      g'.symbols.funcs = g.symbols.funcs := by
  unfold declareClasses
  -- Before each declaration the classes are those of the numbers done.
  refine (Runs.mapM (I := fun done cs g' => cs = done.map .numbered ∧ Settling config g' ∧
      g'.symbols.classes = done.map (fun i => .placeholder (className i)) ∧
      g'.symbols.funcs = g.symbols.funcs) ⟨rfl, hg, hempty, rfl⟩ ?_).mono fun cs g' h => ?_
  · rintro done cs i rest s has ⟨rfl, hs, hclasses, hfuncs⟩
    obtain ⟨hi, rfl⟩ := range_eq_append_cons has
    have hnew : className i ∉ s.symbols.classes.map (·.name) := by
      rw [hclasses]
      simp only [List.map_map, List.mem_map, List.mem_range, Function.comp_apply]
      rintro ⟨j, hj, heq⟩
      exact absurd (numbered_inj heq) (Nat.ne_of_lt hj)
    have hdeclare := SymbolTable.declareClass_of_new hs.isOpen hnew
    refine modifySymbols_runs hdeclare ⟨?_, ?_, ?_, hfuncs⟩
    · rw [hclasses, List.length_map, List.length_range, List.map_append]
      rfl
    · exact ⟨hs.config, hs.scope, hs.isOpen, .declareClass hs.reachable hdeclare⟩
    · rw [hclasses, List.map_append]
      rfl
  · obtain ⟨hcs, hg', hclasses, hfuncs⟩ := h
    exact ⟨hg', hcs, hclasses, hfuncs⟩

variable [WordSource ρ]

/-- A class of the table that is still a placeholder is defined. -/
theorem defineClass_of_pending {t : SymbolTable} {n i : Nat} {type : ClassType}
    (hopen : t.isFrozen = false) (hnames : t.classNames = (List.range n).map className)
    (hi : i < n) (hpending : t.Pending i) (htype : type.name = className i) :
    t.defineClass type = .ok (i,
      { t with
        classes := t.classes.set i { type with isDefined := true }
        fieldIndex := SymbolTable.insertFields i 0 type.fields t.fieldIndex }) := by
  obtain ⟨known, hknown, hundefined⟩ := hpending
  have hfound : t.classByName? type.name = some i := by
    rw [htype]
    exact SymbolTable.classByName?_of_numbered hnames hi
  simp [SymbolTable.defineClass, hopen, hfound, hknown, hundefined]

/-- A definition keeps the names of the classes and the other classes. -/
theorem SymbolTable.set_keeps {t : SymbolTable} {n i : Nat} {type : ClassType}
    (hnames : t.classNames = (List.range n).map className) (hi : i < n) (hpending : t.Pending i)
    (htype : type.name = className i) :
    (t.classes.set i type).map (·.name) = t.classNames ∧ (t.classes.set i type)[i]? = some type ∧
      ∀ j, j ≠ i → (t.classes.set i type)[j]? = t.classes[j]? := by
  have hname : t.classNames[i]? = some type.name := by
    rw [hnames, List.getElem?_map, List.getElem?_range hi]
    exact congrArg some htype.symm
  obtain ⟨known, hknown, -⟩ := hpending
  have hlt : i < t.classes.length := (List.getElem?_eq_some_iff.1 hknown).1
  exact ⟨SymbolTable.names_set hname, List.getElem?_set_self hlt,
    fun j hne => List.getElem?_set_ne hne.symm⟩

/-- A number comes once in a list of consecutive ones. -/
theorem notMem_of_range_eq {n i : Nat} {done rest : List Nat}
    (h : List.range n = done ++ i :: rest) : i ∉ rest := by
  have hnodup : (done ++ i :: rest).Nodup := by
    rw [← h]
    exact List.nodup_range
  exact (List.nodup_cons.1 (List.nodup_append.1 hnodup).2.1).1

/-- Declared classes are defined, each as one that is drawn for it, and their methods are
collected. -/
theorem defineClasses_runs (hcfg : config.Tolerated E) (hE : E .outOfAttempts) {n : Nat} :
    ∀ {ids done : List Nat} {g : Generator ρ}, List.range n = done ++ ids → Settling config g →
      g.symbols.classNames = (List.range n).map className → (∀ i ∈ ids, g.symbols.Pending i) →
      Runs E (defineClasses (done.map .numbered) (ids.map .numbered)) g fun methods g' =>
        Settling config g' ∧ g'.symbols.funcs = g.symbols.funcs ∧
        g'.symbols.classNames = g.symbols.classNames ∧ (∀ i ∈ ids, g'.symbols.Defines i) ∧
        (∀ i, i ∉ ids → g'.symbols.classes[i]? = g.symbols.classes[i]?) ∧
        MethodsOf g'.symbols ids methods ∧ methods = ids.flatMap g'.symbols.methodsAt
  | [], _, g, _, hg, _, _ =>
      Runs.pure ⟨hg, rfl, rfl, nofun, fun _ _ => rfl, ⟨nofun, nofun, nofun, List.nodup_nil⟩, rfl⟩
  -- The table keeps its names and its other classes, so those to come stay pending, and those
  -- that are defined stay defined.
  | i :: ids, done, g, hrange, hg, hnames, hids => by
      obtain ⟨hi, rfl⟩ := range_eq_append_cons hrange
      have hnotin : i ∉ ids := notMem_of_range_eq hrange
      have hcfg' : g.env.config.Tolerated E := by
        rw [show g.env.config = config from hg.config]
        exact hcfg
      rw [List.map_cons, defineClasses]
      refine Runs.bind (draw_runs (Draw.classType_gives hcfg' hE _ _) fun type source htype => ?_)
      have hpending := hids i List.mem_cons_self
      have hdefine := defineClass_of_pending hg.isOpen hnames hi hpending htype.name
      refine Runs.bind (modifySymbols_runs hdefine ?_)
      let defined : ClassType := { type with isDefined := true }
      have hname : defined.name = className i := htype.name
      obtain ⟨hnames', hown, hset⟩ := SymbolTable.set_keeps hnames hi hpending hname
      have hids' : ∀ j ∈ ids, ∃ known, (g.symbols.classes.set i defined)[j]? = some known ∧
          known.isDefined = false := by
        intro j hj
        rw [hset j (ne_of_mem_of_not_mem hj hnotin)]
        exact hids j (List.mem_cons_of_mem i hj)
      have hsettling : Settling config { g with
          source
          symbols := { g.symbols with
            classes := g.symbols.classes.set i defined
            fieldIndex := SymbolTable.insertFields i 0 type.fields g.symbols.fieldIndex } } :=
        ⟨hg.config, hg.scope, hg.isOpen, .defineClass hg.reachable hdefine⟩
      have hrange' : List.range n = (List.range i ++ [i]) ++ ids := by simpa using hrange
      have hdone : (List.range i).map ClassRef.numbered ++ [.numbered i] =
          (List.range i ++ [i]).map .numbered := by simp
      rw [hdone]
      refine Runs.bind ((defineClasses_runs hcfg hE hrange' hsettling (hnames'.trans hnames)
        hids').mono fun methods g' h => ?_)
      obtain ⟨hg', hfuncs, hkeptNames, hdefines, hkept, hmethods, hinOrder⟩ := h
      have hnames'' : g'.symbols.classNames = g.symbols.classNames := hkeptNames.trans hnames'
      have hget : g'.symbols.classes[i]? = some defined := (hkept i hnotin).trans hown
      have hdrawn : type.Drawn g'.symbols.classNames ((List.range i).map .numbered)
          (.numbered i) := by
        rw [hnames'']
        exact htype
      have hmethodsAt : g'.symbols.methodsAt i = type.methods := by
        rw [SymbolTable.methodsAt, hget]
        rfl
      refine Runs.pure ⟨hg', hfuncs, hnames'', ?_, ?_, .cons hdrawn hget hnotin hmethods, ?_⟩
      · exact List.forall_mem_cons.2 ⟨⟨type, hdrawn, hget⟩, hdefines⟩
      · intro j hj
        rw [List.mem_cons, not_or] at hj
        exact (hkept j hj.2).trans (hset j hj.1)
      · rw [List.flatMap_cons, hmethodsAt, ← hinOrder]

/-! ## Library functions -/

/-- The functions of the table are the built-in ones and those of the library files so far, and
their names differ. -/
structure LibrariesSettled (libs : List (List FuncType)) (t : SymbolTable) : Prop where
  funcs : t.funcs = Catalog.builtins ++ libs.flatten
  drawn : ∀ i fs, libs[i]? = some fs → LibraryDrawn t.classNames i fs
  distinct : (t.funcs.map (·.qualifiedName)).Nodup

namespace LibrariesSettled

variable {libs : List (List FuncType)} {t : SymbolTable}

/-- A function of the table is a built-in one, or one that is drawn for a library file. -/
theorem cases (h : LibrariesSettled libs t) {f : FuncType} (hf : f ∈ t.funcs) :
    f ∈ Catalog.builtins ∨
      ∃ i fs, libs[i]? = some fs ∧ f ∈ fs ∧ LibraryDrawn t.classNames i fs := by
  rw [h.funcs] at hf
  rcases List.mem_append.1 hf with hf | hf
  · exact Or.inl hf
  · obtain ⟨fs, hfs, hf⟩ := List.mem_flatten.1 hf
    obtain ⟨i, hi⟩ := List.mem_iff_getElem?.1 hfs
    exact Or.inr ⟨i, fs, hi, hf, h.drawn i fs hi⟩

/-- The names of the functions of the table. -/
theorem names (h : LibrariesSettled libs t) {f : FuncType} (hf : f ∈ t.funcs) :
    f ∈ Catalog.builtins ∨ ∃ i < libs.length, ∃ k, f.qualifiedName = libFuncName i k := by
  refine (h.cases hf).imp_right ?_
  rintro ⟨i, fs, hi, hmem, hdrawn⟩
  obtain ⟨n, hn⟩ := hdrawn.qualifiedNames
  exact ⟨i, (List.getElem?_eq_some_iff.1 hi).1, exists_name_of_map_eq hn f hmem⟩

/-- The functions of the next library file have other names than those before them. -/
theorem append_funcs (h : LibrariesSettled libs t) {n : Nat} {fs : List FuncType}
    (hn : fs.map (·.qualifiedName) = (List.range n).map (libFuncName libs.length)) :
    ((t.funcs ++ fs).map (·.qualifiedName)).Nodup := by
  rw [List.map_append, List.nodup_append]
  refine ⟨h.distinct, nodup_of_map_eq hn fun k l hkl => (libFuncName_inj hkl).2, ?_⟩
  rintro x hx y hy rfl
  obtain ⟨f, hf, rfl⟩ := List.mem_map.1 hx
  obtain ⟨f', hf', heq⟩ := List.mem_map.1 hy
  obtain ⟨k, hk⟩ := exists_name_of_map_eq hn f' hf'
  rw [hk] at heq
  rcases h.names hf with hbuiltin | ⟨j, hj, l, hl⟩
  · exact libFuncName_ne_builtin _ k f hbuiltin heq.symm
  · rw [hl] at heq
    exact absurd (libFuncName_inj heq).1 (Nat.ne_of_gt hj)

/-- The methods of classes have other names than the functions before them. -/
theorem append_methods (h : LibrariesSettled libs t) {t' : SymbolTable} {ids : List Nat}
    {methods : List FuncType} (hm : MethodsOf t' ids methods) :
    ((t.funcs ++ methods).map (·.qualifiedName)).Nodup := by
  rw [List.map_append, List.nodup_append]
  refine ⟨h.distinct, hm.distinct, ?_⟩
  rintro x hx y hy rfl
  obtain ⟨f, hf, rfl⟩ := List.mem_map.1 hx
  obtain ⟨m, hmem, heq⟩ := List.mem_map.1 hy
  obtain ⟨i, -, k, hk⟩ := hm.names m hmem
  rw [hk] at heq
  rcases h.names hf with hbuiltin | ⟨j, -, l, hl⟩
  · exact memberName_ne_builtin i k f hbuiltin heq.symm
  · rw [hl] at heq
    exact memberName_ne_libFuncName _ _ _ _ heq

end LibrariesSettled

/-- The functions of the next library file are settled. -/
theorem libFuncs_runs (hcfg : config.Tolerated E) (hE : E .outOfAttempts)
    {libs : List (List FuncType)} (hg : Settling config g)
    (hlibs : LibrariesSettled libs g.symbols) :
    Runs E (libFuncs libs.length) g fun fs g' => Settling config g' ∧
      LibrariesSettled (libs ++ [fs]) g'.symbols ∧ g'.symbols.classes = g.symbols.classes ∧
      config.libFuncs.min ≤ fs.length ∧ fs.length ≤ config.libFuncs.max := by
  have hcfg' : g.env.config.Tolerated E := by
    rw [show g.env.config = config from hg.config]
    exact hcfg
  unfold libFuncs
  refine Runs.bind (draw_runs (Draw.libFuncs_gives hcfg' hE _) fun fs source hfs => ?_)
  obtain ⟨hfs, hcount⟩ := hfs
  rw [show g.env.config = config from hg.config] at hcount
  have hdrawn : LibraryDrawn g.symbols.classNames libs.length fs := ⟨hfs.1, hfs.2⟩
  obtain ⟨n, hn⟩ := hdrawn.qualifiedNames
  have hdistinct := hlibs.append_funcs hn
  have hsettling : Settling config { g with source } :=
    ⟨hg.config, hg.scope, hg.isOpen, hg.reachable⟩
  refine Runs.bind ((register_runs hsettling hdistinct).mono fun _ g' h => ?_)
  obtain ⟨hg', hfuncs, hclasses⟩ := h
  have hnames : g'.symbols.classNames = g.symbols.classNames :=
    SymbolTable.classNames_congr hclasses
  refine Runs.pure ⟨hg', ⟨?_, ?_, ?_⟩, hclasses, hcount⟩
  · rw [hfuncs, hlibs.funcs]
    simp
  · rw [hnames]
    -- The functions drawn belong to the last library, and those of the earlier ones stay.
    intro i fs' hi
    rcases Nat.lt_or_ge i libs.length with hlt | hge
    · rw [List.getElem?_append_left hlt] at hi
      exact hlibs.drawn i fs' hi
    · rw [List.getElem?_append_right hge, List.getElem?_singleton] at hi
      split at hi
      · obtain rfl := Option.some.inj hi
        obtain rfl : i = libs.length := by omega
        exact hdrawn
      · cases hi
  · rw [hfuncs]
    exact hdistinct

/-- The functions of all library files are settled. -/
theorem libraries_runs (hcfg : config.Tolerated E) (hE : E .outOfAttempts)
    (hg : Settling config g) (hlibs : LibrariesSettled [] g.symbols) (n : Nat) :
    Runs E ((List.range n).mapM libFuncs) g fun libs g' => n = libs.length ∧
      Settling config g' ∧ LibrariesSettled libs g'.symbols ∧
      g'.symbols.classes = g.symbols.classes ∧
      ∀ fs ∈ libs, config.libFuncs.min ≤ fs.length ∧ fs.length ≤ config.libFuncs.max := by
  refine (Runs.mapM (I := fun (done : List Nat) libs g' => done.length = libs.length ∧
    Settling config g' ∧ LibrariesSettled libs g'.symbols ∧
    g'.symbols.classes = g.symbols.classes ∧
    ∀ fs ∈ libs, config.libFuncs.min ≤ fs.length ∧ fs.length ≤ config.libFuncs.max)
    ⟨rfl, hg, hlibs, rfl, nofun⟩ ?_).mono fun libs g' h => ?_
  · rintro done libs i rest s has ⟨hlen, hs, hlibs, hkept, hcounts⟩
    obtain ⟨-, rfl⟩ := range_eq_append_cons has
    obtain rfl : i = libs.length := by simpa using hlen
    refine (libFuncs_runs hcfg hE hs hlibs).mono fun fs s' h => ?_
    obtain ⟨hs', hlibs', hkept', hcount⟩ := h
    refine ⟨by simp, hs', hlibs', hkept'.trans hkept, ?_⟩
    exact List.forall_mem_append.2 ⟨hcounts, List.forall_mem_singleton.2 hcount⟩
  · exact ⟨by simpa using h.1, h.2⟩

/-! ## All signatures -/

/-- What is settled before any body is built: classes are numbered and defined, and the
functions of the table are the built-in ones, those of the library files, and the methods of the
classes. -/
structure Settled (t : SymbolTable) (known : Signatures) : Prop where
  classes : known.classes = (List.range t.classes.length).map .numbered
  names : t.classNames = (List.range t.classes.length).map className
  defines : ∀ i < t.classes.length, t.Defines i
  libFuncs : ∀ i fs, known.libFuncs[i]? = some fs → LibraryDrawn t.classNames i fs
  funcs : ∀ f ∈ t.funcs, f ∈ Catalog.builtins ∨ f ∈ known.libFuncs.flatten ∨ t.HasMethod f

/-- How much is settled, and in which order: as many classes and library files as the
configuration says, as many functions for each file as it allows, and in the table the built-in
functions, then those of the library files, then the methods of the classes. -/
structure Arranged (config : Config) (t : SymbolTable) (libs : List (List FuncType)) : Prop where
  classes : t.classes.length = config.classes
  libFiles : libs.length = config.libFiles
  libFuncs : ∀ fs ∈ libs, config.libFuncs.min ≤ fs.length ∧ fs.length ≤ config.libFuncs.max
  funcs : t.funcs = Catalog.builtins ++ (libs.flatten ++ t.classes.flatMap (·.methods))

namespace Settled

variable {t : SymbolTable} {known : Signatures} {f : FuncType}

/-- All is settled once the methods of the classes stand after the functions of the library files. -/
theorem of_methods {libs : List (List FuncType)} {t₀ : SymbolTable} {methods : List FuncType}
    {n : Nat} (hlibs : LibrariesSettled libs t₀) (hclasses : t.classes = t₀.classes)
    (hfuncs : t.funcs = t₀.funcs ++ methods) (hmethods : ∀ m ∈ methods, t.HasMethod m)
    (hnames : t.classNames = (List.range n).map className)
    (hdefines : ∀ i ∈ List.range n, t.Defines i) :
    Settled t ⟨(List.range n).map .numbered, libs⟩ := by
  have hlen : t.classes.length = n := by
    simpa [SymbolTable.classNames] using congrArg List.length hnames
  refine ⟨by rw [hlen], by rw [hlen, hnames], ?_, ?_, ?_⟩
  · rw [hlen]
    exact fun i hi => hdefines i (List.mem_range.2 hi)
  · rw [SymbolTable.classNames_congr hclasses]
    exact hlibs.drawn
  · intro f hf
    rw [hfuncs, hlibs.funcs, List.append_assoc] at hf
    refine (List.mem_append.1 hf).imp_right fun hf => ?_
    exact (List.mem_append.1 hf).imp_right (hmethods f)

theorem library (h : Settled t known) (hf : f ∈ known.libFuncs.flatten) :
    f.Drawn t.classNames ∧ f.owner = none := by
  obtain ⟨fs, hfs, hf⟩ := List.mem_flatten.1 hf
  obtain ⟨i, hi⟩ := List.mem_iff_getElem?.1 hfs
  exact (h.libFuncs i fs hi).drawn f hf

/-- A method of the table is drawn. -/
theorem method (h : Settled t known) (hf : t.HasMethod f) : f.Drawn t.classNames := by
  obtain ⟨i, type, -, hget, hmem⟩ := hf
  obtain ⟨drawn, hdrawn, hget'⟩ := h.defines i (List.getElem?_eq_some_iff.1 hget).1
  rw [hget] at hget'
  obtain rfl := Option.some.inj hget'
  exact (hdrawn.methods f hmem).1

/-- The functions of a settled table are sound. -/
theorem sound (h : Settled t known) : ∀ f ∈ t.funcs, f.Sound := by
  intro f hf
  rcases h.funcs f hf with hf | hf | hf
  · exact Catalog.builtins_sound f hf
  · exact (h.library hf).1.toSound
  · exact (h.method hf).toSound

theorem className_eq (h : Settled t known) {i : Nat} (hi : i < t.classes.length) :
    t.classNames[i]? = some (className i) := by
  rw [h.names, List.getElem?_map, List.getElem?_range hi]
  rfl

/-- The functions of a settled table refer to its classes only. -/
theorem closed (h : Settled t known) : t.Closed := by
  constructor
  · intro f hf
    rcases h.funcs f hf with hf | hf | hf
    · exact Catalog.builtins_within t.classNames f hf
    · exact (h.library hf).1.within
    · exact (h.method hf).within
  · intro f hf
    rcases h.funcs f hf with hf | hf | hf
    · exact .of_none (Catalog.builtins_owner f hf)
    · exact .of_none (h.library hf).2
    · obtain ⟨i, type, howner, hget, -⟩ := hf
      intro c hc
      rw [howner] at hc
      obtain rfl := Option.some.inj hc
      exact h.className_eq (List.getElem?_eq_some_iff.1 hget).1

end Settled

/-- The signatures of a program are settled, in their order. -/
theorem signatures_runs (hcfg : config.Tolerated E) (hE : E .outOfAttempts)
    (hg : Settling config g) (hclasses : g.symbols.classes = [])
    (hfuncs : g.symbols.funcs = Catalog.builtins) :
    Runs E signatures g fun known g' => Settling config g' ∧ Settled g'.symbols known ∧
      Arranged config g'.symbols known.libFuncs := by
  unfold signatures
  refine Runs.bind (get_runs ?_)
  refine Runs.bind ((declareClasses_runs hg hclasses _).mono fun cs g₁ h => ?_)
  obtain ⟨hg₁, rfl, hclasses₁, hfuncs₁⟩ := h
  have hnames : g₁.symbols.classNames = (List.range g.config.classes).map className := by
    rw [SymbolTable.classNames, hclasses₁, List.map_map]
    rfl
  have hpending : ∀ i ∈ List.range g.config.classes, g₁.symbols.Pending i := by
    intro i hi
    refine ⟨.placeholder (className i), ?_, rfl⟩
    simp [hclasses₁, List.mem_range.1 hi]
  have hall : List.range g.config.classes = [] ++ List.range g.config.classes := rfl
  refine Runs.bind ((defineClasses_runs hcfg hE hall hg₁ hnames hpending).mono
    fun methods g₂ h => ?_)
  obtain ⟨hg₂, hfuncs₂, hnames₂, hdefines, -, hmethods, hinOrder⟩ := h
  refine Runs.bind (get_runs ?_)
  have hbuiltins : g₂.symbols.funcs = Catalog.builtins := by
    rw [hfuncs₂, hfuncs₁, hfuncs]
  have hlibs : LibrariesSettled [] g₂.symbols := by
    refine ⟨by simpa using hbuiltins, by simp, ?_⟩
    rw [hbuiltins]
    exact nodup_builtins
  -- Methods are registered last, after the functions of all library files.
  refine Runs.bind ((libraries_runs hcfg hE hg₂ hlibs _).mono fun libs g₃ h => ?_)
  obtain ⟨hlibFiles, hg₃, hlibs₃, hclasses₃, hcounts⟩ := h
  have hdistinct := hlibs₃.append_methods hmethods
  refine Runs.bind ((register_runs hg₃ hdistinct).mono fun _ g₄ h => ?_)
  obtain ⟨hg₄, hfuncs₄, hclasses₄⟩ := h
  -- From the definitions on, the classes stay as they are.
  have hsame : g₄.symbols.classes = g₂.symbols.classes := hclasses₄.trans hclasses₃
  have hnames₄ : g₄.symbols.classNames = (List.range g.config.classes).map className := by
    rw [SymbolTable.classNames_congr hsame, hnames₂, hnames]
  have hlen : g₄.symbols.classes.length = g.config.classes := by
    simpa [SymbolTable.classNames] using congrArg List.length hnames₄
  have hordered : methods = g₄.symbols.classes.flatMap (·.methods) := by
    rw [hinOrder, hsame, ← SymbolTable.methodsAt_range, ← hsame, hlen]
  have hsettled := Settled.of_methods hlibs₃ hclasses₄ hfuncs₄
    (fun m hm => (hmethods.known m hm).congr hsame) hnames₄
    (fun i hi => (hdefines i hi).congr hsame)
  refine Runs.pure ⟨hg₄, hsettled, ?_, ?_, hcounts, ?_⟩
  · rw [hlen, hg.config]
  · rw [← hlibFiles, hg₂.config]
  · rw [hfuncs₄, hlibs₃.funcs, List.append_assoc, hordered]

end Build

end TypedPhp
