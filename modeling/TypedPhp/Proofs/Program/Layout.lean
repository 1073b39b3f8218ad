import TypedPhp.Proofs.Print.File
import TypedPhp.Proofs.Program.Callables
import TypedPhp.Proofs.Program.References

set_option autoImplicit false

/-!
# Layout of programs

Where the declarations of a generated program stand: the classes are dealt out in turn to the library
files and keep their order, the functions of a library file follow its classes, and the main file
requires all other files and starts the program. The symbol table registers the same functions and
methods, in the order of the files and classes. `Program.LaidOut` says so of a program of any size,
with the names that it declares. `Program.laid_out` says that every generated program is laid out as
its configuration says.
-/

namespace TypedPhp

/-! ## What the support file declares -/

/-- The names that follow a keyword at the beginning of a line of the support file. -/
def Support.declared (keyword : String) (stop : Char) : List String :=
  (fileLines.filter fun line => keyword.toList.isPrefixOf line.toList).map fun line =>
    String.ofList ((line.toList.drop keyword.toList.length).takeWhile (· != stop))

/-- The functions that the support file declares. -/
def Support.functionNames : List String := declared "function " '('

/-- The classes that the support file declares. -/
def Support.classNames : List String := declared "class " ' '

theorem Support.names_eq : functionNames =
    ["fuzz_dump", "tuple", "fuzz_visited", "fuzz_safe_div", "fuzz_safe_mod", "fuzz_float_eq"] ∧
      classNames = ["FuzzVisited"] := by
  -- One evaluation for both, since the lines are taken apart in it.
  decide +kernel

/-! ## The layout -/

/-- The numbers of the classes that the library file of number `i` declares. -/
def Config.classesOf (config : Config) (i : Nat) : List Nat :=
  (List.range config.classes).filter (· % config.libFiles = i)

/-- Top-level nodes declare the classes of the given numbers, one after the other. -/
def RootNode.Declare (ids : List Nat) (nodes : List RootNode) : Prop :=
  List.Forall₂ (fun i n => n.className? = some (className i)) ids nodes

/-- A library file: first its classes, then its functions, which are numbered. -/
structure File.IsLibrary (config : Config) (i : Nat) (file : File) : Prop where
  name : file.name = libFileName i
  nodes : ∃ classes, file.nodes = classes ++ file.functions.map .func ∧
    RootNode.Declare (config.classesOf i) classes
  functions : file.functions.map (·.type.name) =
    (List.range file.functions.length).map (libFuncName i)
  count : config.libFuncs.min ≤ file.functions.length ∧
    file.functions.length ≤ config.libFuncs.max

/-- The main file: the classes if no library file declares them, the files that it requires, its
functions, and the call that starts the program. -/
structure File.IsMain (config : Config) (file : File) : Prop where
  name : file.name = mainFileName
  nodes : ∃ classes, file.nodes = classes ++
      (Support.fileName :: (List.range config.libFiles).map libFileName).map .require ++
      file.functions.map .func ++ [.stmt (.call "main" [])] ∧
    RootNode.Declare (if config.libFiles = 0 then List.range config.classes else []) classes

namespace Program

/-- The layout of a program, with the table that its signatures are registered in. -/
structure LaidOut (config : Config) (t : SymbolTable) (p : Program) : Prop where
  libraries : ∀ i < config.libFiles, ∃ file, p.files[i]? = some file ∧ file.IsLibrary config i
  main : ∃ file, p.files[config.libFiles]? = some file ∧ file.IsMain config
  files : p.files.length = config.libFiles + 1
  /-- The files are written under different names, none of them that of the support file. -/
  written : ∃ texts, Print.program p = .ok texts ∧ (texts.map (·.1)).Nodup ∧
    texts.map (·.1) =
      Support.fileName :: ((List.range config.libFiles).map libFileName ++ [mainFileName])
  /-- Every class is declared once. -/
  classes : (p.classes.map (·.1.name)).Perm ((List.range config.classes).map className)
  /-- What is registered: the built-in functions, those of the library files, and methods. -/
  registered : t.funcs = Catalog.builtins ++
    (p.libFunctions.map (·.type) ++ t.classes.flatMap (·.methods))
  /-- The registered methods are those of the class declarations, constructors apart. -/
  methods : ((p.methods.filter (·.type.name != "__construct")).map (·.type)).Perm
    (t.classes.flatMap (·.methods))
  /-- Every registered method is that of one class declaration, the one of its class. -/
  owned : ∀ f ∈ t.funcs, ∀ c, f.owner = some c → ∃ type methods m,
    p.classes.filter (fun d => d.2.any (·.type.qualifiedName == f.qualifiedName)) =
      [(type, methods)] ∧ type.name = c.name ∧ m ∈ methods ∧ m.type = f
  classNames : (Support.classNames ++ p.classes.map (·.1.name)).Nodup
  methodNames : ∀ c ∈ p.classes, (c.2.map (·.type.name)).Nodup
  functionNames : (Catalog.builtins.map (·.name) ++ Support.functionNames ++
    p.functions.map (·.type.name)).Nodup

end Program

/-! ## Dealing out -/

/-- What is dealt out to a place has the numbers that belong there, in order. -/
theorem forall₂_share {α : Type} {R : Nat → α → Prop} {m n i : Nat} {xs : List α}
    (h : List.Forall₂ R (List.range m) xs) :
    List.Forall₂ R ((List.range m).filter (· % n = i)) (share n i xs) := by
  have hlen : xs.length = m := by simpa using h.length_eq.symm
  have hnumbers : (List.range m).filter (· % n = i) =
      (xs.zipIdx.filter fun x => x.2 % n = i).map (·.2) := by
    rw [← hlen, List.range_eq_range', ← List.zipIdx_map_snd, List.filter_map]
    rfl
  have hall : ∀ x ∈ xs.zipIdx, R x.2 x.1 := by
    rintro ⟨x, j⟩ hx
    have hget := List.mem_zipIdx_iff_getElem?.1 hx
    obtain ⟨hj, hx⟩ := List.getElem?_eq_some_iff.1 hget
    have hR := List.Forall₂.get h (i := j) (by simpa [hlen] using hj) hj
    simpa [hx] using hR
  rw [hnumbers, share, List.forall₂_map_left_iff, List.forall₂_map_right_iff, List.forall₂_same]
  exact fun x hx => hall x (List.mem_filter.1 hx).1

/-- Among lists with different keys throughout, one that holds a key is the only one. -/
theorem filter_any_key_eq {α β κ : Type} [DecidableEq κ] (parts : α → List β) (key : β → κ)
    {xs : List α} (hd : ((xs.flatMap parts).map key).Nodup) {x : α} {y : β} (hx : x ∈ xs)
    (hy : y ∈ parts x) : xs.filter (fun z => (parts z).any (key · == key y)) = [x] := by
  have hany : (parts x).any (key · == key y) = true := List.any_eq_true.2 ⟨y, hy, beq_self_eq_true _⟩
  -- A second list with the key would repeat it among the keys of all.
  induction xs with
  | nil => cases hx
  | cons z zs ih =>
      rw [List.flatMap_cons, List.map_append, List.nodup_append] at hd
      obtain ⟨-, hrest, hdisjoint⟩ := hd
      rcases List.mem_cons.1 hx with rfl | hx
      · have hnone : zs.filter (fun z => (parts z).any (key · == key y)) = [] := by
          refine List.filter_eq_nil_iff.2 fun z hz hkey => ?_
          obtain ⟨y', hy', heq⟩ := List.any_eq_true.1 hkey
          refine hdisjoint _ (List.mem_map_of_mem hy) _ ?_ (eq_of_beq heq).symm
          exact List.mem_map_of_mem (List.mem_flatMap.2 ⟨z, hz, hy'⟩)
        rw [List.filter_cons, if_pos hany, hnone]
      · have hne : ¬(parts z).any (key · == key y) = true := by
          intro hkey
          obtain ⟨y', hy', heq⟩ := List.any_eq_true.1 hkey
          refine hdisjoint _ (List.mem_map_of_mem hy') _ ?_ (eq_of_beq heq)
          exact List.mem_map_of_mem (List.mem_flatMap.2 ⟨x, hx, hy⟩)
        rw [List.filter_cons, if_neg hne, ih hrest hx]

/-! ## Names of files -/

theorem libFileName_inj {i j : Nat} (h : libFileName i = libFileName j) : i = j := by
  have hpoint : ∀ c ∈ ".php".toList.head?, c.isDigit = false := by simp
  exact (numbered_append_inj hpoint hpoint h).1

/-- The names of the files of a program, that of the support file first, differ. -/
theorem fileNames_nodup (n : Nat) :
    (Support.fileName :: ((List.range n).map libFileName ++ [mainFileName])).Nodup := by
  have hother : ∀ i, libFileName i ≠ Support.fileName := by
    intro i
    apply ne_of_head
    have hhead : (libFileName i).toList.head? = some 'l' := by
      simp [libFileName, String.toList_append]
    rw [hhead]
    decide
  have hlibs : ((List.range n).map libFileName).Nodup :=
    List.Nodup.map (fun i j => libFileName_inj) List.nodup_range
  refine List.nodup_cons.2 ⟨fun hmem => ?_, List.nodup_append.2 ⟨hlibs, List.nodup_singleton _, ?_⟩⟩
  · rcases List.mem_append.1 hmem with hmem | hmem
    · obtain ⟨i, -, hi⟩ := List.mem_map.1 hmem
      exact hother i hi
    · exact absurd (List.mem_singleton.1 hmem) (by decide)
  · rintro x hx y hy rfl
    obtain ⟨i, -, hi⟩ := List.mem_map.1 hx
    exact Program.Parts.libFileName_ne_main i (hi.trans (List.mem_singleton.1 hy))

/-- Files are written under their names, in their order. -/
theorem Print.names_of_mapM : ∀ {files : List File} {texts : List (String × String)},
    files.mapM (fun f => do
      let contents ← Print.file f
      return (f.name, contents)) = .ok texts → texts.map (·.1) = files.map (·.name)
  | [], texts, h => by
      rw [List.mapM_nil] at h
      cases h
      rfl
  | f :: files, texts, h => by
      rw [List.mapM_cons] at h
      obtain ⟨x, hx, h⟩ := Print.ok_of_bind h
      obtain ⟨contents, -, hx⟩ := Print.ok_of_bind hx
      obtain ⟨rest, hrest, h⟩ := Print.ok_of_bind h
      cases hx
      cases h
      rw [List.map_cons, List.map_cons, Print.names_of_mapM hrest]

/-! ## Built programs are laid out -/

variable {config : Config} {t : SymbolTable} {q : Program.Parts}

/-- Built classes declare the classes of their numbers. -/
theorem RootNode.declare_of_built {ids : List Nat} {ns : List RootNode}
    (h : List.Forall₂ (RootNode.ClassBuilt config t) ids ns) : RootNode.Declare ids ns := by
  refine h.imp fun i n hn => ?_
  obtain ⟨type, methods, hclass, hname⟩ := Program.Parts.class?_of_built hn
  rw [className?, hclass, ← hname]
  rfl

/-- The methods of built classes, constructors apart, are those of the table. -/
theorem methods_of_built {ids : List Nat} {ns : List RootNode}
    (h : List.Forall₂ (RootNode.ClassBuilt config t) ids ns) :
    (((ns.filterMap RootNode.class?).flatMap (·.2)).filter
      (·.type.name != "__construct")).map (·.type) = ids.flatMap t.methodsAt := by
  induction h with
  | nil => rfl
  | @cons i n ids ns hn _ ih =>
      obtain @⟨type, methods, hdrawn, hget, -, htypes⟩ := hn
      -- A class has its constructors before the methods of the table, which have other names.
      have hown : t.methodsAt i = type.methods := by
        rw [SymbolTable.methodsAt, hget]
        rfl
      have hconstructors : (type.constructors (.numbered i)).filter
          (·.type.name != "__construct") = [] := by
        refine List.filter_eq_nil_iff.2 fun d hd => ?_
        rw [(ClassType.constructors_create hd).1]
        simp [FuncType.method]
      have hmethods : methods.filter (·.type.name != "__construct") = methods := by
        refine List.filter_eq_self.2 fun m hm => bne_iff_ne.2 ?_
        obtain ⟨n, hn⟩ := hdrawn.names
        rw [← htypes, List.map_map] at hn
        obtain ⟨k, hk⟩ := exists_name_of_map_eq hn m hm
        refine fun heq => ne_of_head ?_ (hk.symm.trans heq)
        simp [methodName, String.toList_append]
      have hclass : RootNode.class? (.classDecl { type with isDefined := true }
          (type.constructors (.numbered i) ++ methods)) =
        some ({ type with isDefined := true }, type.constructors (.numbered i) ++ methods) := rfl
      rw [List.filterMap_cons_some hclass, List.flatMap_cons, List.flatMap_cons,
        List.filter_append, List.map_append, ih, List.filter_append, hconstructors, hmethods, hown,
        ← htypes, List.nil_append]

namespace Program.Parts

/-- The numbers of the classes of a program that is laid out. -/
theorem Built.declare (h : q.Built config t) (hlaid : q.Laid config t) :
    List.Forall₂ (RootNode.ClassBuilt config t) (List.range config.classes) q.classes := by
  have hclasses := h.classes
  rw [hlaid.classes] at hclasses
  exact hclasses

/-- The library files of a program that is laid out. -/
theorem Built.library (h : q.Built config t) (hlaid : q.Laid config t) {i : Nat}
    (hi : i < config.libFiles) :
    ∃ file, q.program.files[i]? = some file ∧ file.IsLibrary config i := by
  have hlen : q.libs.length = config.libFiles := by simpa using hlaid.libFiles
  rw [← hlen] at hi
  let file : File := ⟨libFileName i, share q.libs.length i q.classes ++ q.libs[i].map .func⟩
  have hfile : q.program.files[i]? = some file := by
    have hlib : (libraries q.classes q.libs)[i]? = some file := by
      simp [libraries, hi, file]
    rw [program, List.getElem?_append_left (List.getElem?_eq_some_iff.1 hlib).1, hlib]
  have hfunctions : file.functions = q.libs[i] := by
    rw [File.functions, List.filterMap_append, functions_of_decls,
      h.functions_of_classes fun n hn => mem_of_mem_share hn, List.nil_append]
  have hget : q.libs[i]? = some q.libs[i] := List.getElem?_eq_getElem hi
  refine ⟨file, hfile, rfl, ⟨share q.libs.length i q.classes, ?_, ?_⟩, ?_, ?_⟩
  · rw [hfunctions]
  · rw [Config.classesOf, ← hlen]
    exact forall₂_share (RootNode.declare_of_built (h.declare hlaid))
  · obtain ⟨n, hn⟩ := (h.libTypes i _ hget).names
    have hcount : q.libs[i].length = n := by simpa using congrArg List.length hn
    rw [hfunctions, hcount, ← hn, List.map_map]
    rfl
  · rw [hfunctions]
    have hmem : q.libs[i].map (·.type) ∈ q.libs.map fun ds => ds.map (·.type) :=
      List.mem_map_of_mem (List.getElem_mem hi)
    simpa using hlaid.libFuncs _ hmem

/-- The names of the library files of a program that is laid out. -/
theorem Laid.libraryNames (hlaid : q.Laid config t) :
    (libraries q.classes q.libs).map (·.name) = (List.range config.libFiles).map libFileName := by
  have hlen : q.libs.length = config.libFiles := by simpa using hlaid.libFiles
  rw [libraries, List.map_map, ← hlen, List.range_eq_range', ← List.zipIdx_map_snd, List.map_map]
  rfl

/-- The main file of a program that is laid out. -/
theorem Built.main (h : q.Built config t) (hlaid : q.Laid config t) :
    ∃ file, q.program.files[config.libFiles]? = some file ∧ file.IsMain config := by
  have hlen : q.libs.length = config.libFiles := by simpa using hlaid.libFiles
  have hcount : (libraries q.classes q.libs).length = config.libFiles := by
    simpa [libraries] using hlen
  refine ⟨q.mainFile, ?_, rfl,
    ⟨if (libraries q.classes q.libs).isEmpty then q.classes else [], ?_, ?_⟩⟩
  · rw [program, List.getElem?_append_right (Nat.le_of_eq hcount), hcount, Nat.sub_self]
    rfl
  · rw [h.mainFile_functions, mainFile, hlaid.libraryNames]
    simp
  · simp only [List.isEmpty_iff_length_eq_zero, hcount]
    split
    · exact RootNode.declare_of_built (h.declare hlaid)
    · exact .nil

/-- The methods of the table are those of the classes of the program. -/
theorem Built.methods (h : q.Built config t) :
    ((q.program.methods.filter (·.type.name != "__construct")).map (·.type)).Perm
      (t.classes.flatMap (·.methods)) := by
  have hall := methods_of_built h.classes
  rw [SymbolTable.methodsAt_range] at hall
  rw [← hall]
  exact ((methods_perm q).filter _).map _

/-- A method of the table is that of one class declaration. -/
theorem Built.owned (h : q.Built config t) (hclosed : t.Closed) {f : FuncType} {c : ClassRef}
    (hf : f ∈ t.funcs) (howner : f.owner = some c) : ∃ type methods m,
      q.program.classes.filter
        (fun d => d.2.any (·.type.qualifiedName == f.qualifiedName)) = [(type, methods)] ∧
      type.name = c.name ∧ m ∈ methods ∧ m.type = f := by
  obtain ⟨type, methods, m, hdeclares, hfilter, rfl⟩ := h.declaresMethod hclosed hf howner
  have hm : m ∈ methods := (List.mem_filter.1 (hfilter ▸ List.mem_singleton_self m)).1
  have hclass : (type, methods) ∈ q.program.classes.filter (·.1.name == c.name) := by
    rw [hdeclares]
    exact List.mem_singleton_self _
  obtain ⟨hmem, hname⟩ := List.mem_filter.1 hclass
  refine ⟨type, methods, m, ?_, eq_of_beq hname, hm, rfl⟩
  exact filter_any_key_eq (·.2) (·.type.qualifiedName) h.methods_named.1 hmem hm

/-! ## Names of declarations -/

theorem Built.classNames_perm (h : q.Built config t) (hlaid : q.Laid config t) :
    (q.program.classes.map (·.1.name)).Perm ((List.range config.classes).map className) := by
  rw [← hlaid.classes, ← h.classes_named]
  exact (classes_perm q).map _

/-- The classes of a built program and of the support file have different names. -/
theorem Built.classNames_nodup (h : q.Built config t) :
    (Support.classNames ++ q.program.classes.map (·.1.name)).Nodup := by
  have hother : ∀ i, className i ≠ "FuzzVisited" := by
    intro i
    apply ne_of_head
    simp [className, String.toList_append]
  have hperm := (classes_perm q).map (·.1.name)
  rw [h.classes_named] at hperm
  rw [Support.names_eq.2, List.singleton_append, List.nodup_cons, hperm.mem_iff, hperm.nodup_iff]
  refine ⟨fun hmem => ?_, List.Nodup.map (fun i j hij => numbered_inj hij) List.nodup_range⟩
  obtain ⟨i, -, hi⟩ := List.mem_map.1 hmem
  exact hother i hi

/-- The methods of a class of a built program have different names. -/
theorem Built.methodNames_nodup (h : q.Built config t) {c : ClassType × List FuncDecl}
    (hc : c ∈ q.program.classes) : (c.2.map (·.type.name)).Nodup := by
  obtain ⟨n, hn, hclass⟩ := List.mem_filterMap.1 ((classes_perm q).mem_iff.1 hc)
  obtain ⟨i, hbuilt⟩ := h.ofClass hn
  obtain ⟨type, methods, hclass', hnodup, -⟩ := hbuilt.methodNames
  obtain @⟨type', methods', hdrawn, -, -, htypes⟩ := hbuilt
  obtain rfl := Option.some.inj hclass
  obtain ⟨-, rfl⟩ := Prod.mk.inj (Option.some.inj hclass')
  have hqualified : ∀ m ∈ type'.constructors (.numbered i) ++ methods',
      m.type.qualifiedName = className i ++ "::" ++ m.type.name := by
    intro m hm
    have howner : m.type.owner = some (.numbered i) := by
      rcases List.mem_append.1 hm with hm | hm
      · rw [(ClassType.constructors_create hm).1]
        rfl
      · refine (hdrawn.methods m.type ?_).2
        rw [← htypes]
        exact List.mem_map_of_mem hm
    rw [FuncType.qualifiedName, howner]
    rfl
  -- The qualified names differ after the same beginning.
  rw [List.map_congr_left hqualified] at hnodup
  have hmap := List.Nodup.of_map (fun x : String => className i ++ "::" ++ x)
    (l := (type'.constructors (.numbered i) ++ methods').map (·.type.name))
  rw [List.map_map] at hmap
  exact hmap hnodup

/-- The names of functions that are there whatever the program. -/
def fixedNames : List String := Catalog.builtins.map (·.name) ++ Support.functionNames

/-- No function of a built program is named like one that is there anyway. -/
theorem Built.functionName_fresh (h : q.Built config t) {d : FuncDecl}
    (hd : d ∈ q.program.functions) : d.type.name ∉ fixedNames := by
  have hstart : ∀ x ∈ fixedNames, x.toList.take 3 ≠ "lib".toList ∧ x.toList.take 2 ≠ "fn".toList ∧
      x ≠ "main" := by
    rw [fixedNames, Support.names_eq.1]
    decide
  intro hmem
  obtain ⟨hlib, hfunc, hmain⟩ := hstart _ hmem
  rw [h.functions_eq] at hd
  rcases List.mem_append.1 hd with hd | hd
  · obtain ⟨i, k, hname⟩ := h.libName hd
    apply hlib
    rw [hname]
    simp [libFuncName, String.toList_append]
  · rcases List.mem_append.1 hd with hd | hd
    · obtain ⟨i, hname⟩ := h.funcName hd
      apply hfunc
      rw [hname]
      simp [mainFuncName, String.toList_append]
    · rw [List.mem_singleton.1 hd, h.entry.type] at hmain
      exact hmain rfl

/-- The functions of a built program, built-in functions and those of the support file have
different names. -/
theorem Built.functionNames_fresh (h : q.Built config t) :
    (fixedNames ++ q.program.functions.map (·.type.name)).Nodup := by
  have hfixed : fixedNames.Nodup := by
    rw [fixedNames, Support.names_eq.1]
    decide
  refine List.nodup_append.2 ⟨hfixed, h.functionNames_nodup, ?_⟩
  rintro x hx y hy rfl
  obtain ⟨d, hd, rfl⟩ := List.mem_map.1 hy
  exact h.functionName_fresh hd hx

/-- A built program of a configuration is laid out as that says. -/
theorem Built.laidOut (h : q.Built config t) (ht : t.Ready) (hlaid : q.Laid config t) :
    q.program.LaidOut config t := by
  have hfiles : q.program.files.map (·.name) =
      (List.range config.libFiles).map libFileName ++ [mainFileName] := by
    rw [program, List.map_append, hlaid.libraryNames]
    rfl
  have hcount : q.program.files.length = config.libFiles + 1 := by
    simpa using congrArg List.length hfiles
  refine ⟨fun i hi => h.library hlaid hi, h.main hlaid, hcount, ?_, h.classNames_perm hlaid, ?_,
    h.methods, fun f hf c hc => h.owned ht.closed hf hc, h.classNames_nodup,
    fun c hc => h.methodNames_nodup hc, h.functionNames_fresh⟩
  · obtain ⟨texts, htexts⟩ := Program.Built.written ht ⟨q, h, rfl⟩
    obtain ⟨generated, hgenerated, heq⟩ := Print.ok_of_bind htexts
    cases heq
    have hnames : (q.program.support.map (fun f => (f.name, f.contents)) ++ generated).map (·.1) =
        Support.fileName :: ((List.range config.libFiles).map libFileName ++ [mainFileName]) := by
      rw [List.map_append, Print.names_of_mapM hgenerated, hfiles]
      rfl
    refine ⟨_, htexts, ?_, hnames⟩
    rw [hnames]
    exact fileNames_nodup config.libFiles
  · rw [hlaid.funcs, h.libFunctions_eq, List.map_flatten]

end Program.Parts

/-- Every generated program is laid out as its configuration says, with the table that its
signatures are registered in, whatever the configuration and whatever the source yields. -/
theorem Program.laid_out {ρ : Type} [WordSource ρ] (source : ρ) (config : Config) (attempts : Nat)
    {p : Program} {g' : Generator ρ}
    (h : Build.program (Generator.start source config attempts) = .ok (p, g')) :
    p.LaidOut config g'.symbols := by
  have hcfg : config.Tolerated fun _ => True := Config.tolerated_of_all fun _ => trivial
  obtain ⟨⟨q, hq, hlaid, rfl⟩, ht⟩ :=
    (Build.program_parts_runs source hcfg trivial attempts).of_ok h
  exact hq.laidOut ht hlaid

/-- The layout of a small program: a class and a function in its library file, and two functions
in its main file. -/
theorem Program.laid_out_small : ∃ (p : Program) (t : SymbolTable),
    p.classes.length = 1 ∧ p.files.map (·.functions.length) = [1, 2] ∧ p.LaidOut .small t := by
  obtain ⟨p, g', hrun, hcounts⟩ := Build.program_of_check ⟨[], 189⟩ .small 10
    (fun p => p.classes.length == 1 && p.files.map (·.functions.length) == [1, 2])
    (by decide +kernel)
  obtain ⟨hclasses, hfunctions⟩ := Bool.and_eq_true_iff.1 hcounts
  exact ⟨p, g'.symbols, eq_of_beq hclasses, eq_of_beq hfunctions, Program.laid_out _ _ _ hrun⟩

end TypedPhp
