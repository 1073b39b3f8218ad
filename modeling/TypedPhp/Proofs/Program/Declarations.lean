import Mathlib.Data.List.Perm.Basic
import TypedPhp.Proofs.Program.Structure

set_option autoImplicit false

/-!
# What a program declares

The classes and functions of a program are read off its files. In a built program every class of the
symbol table is declared exactly once, whichever file it is dealt out to, and so is every function
of a library file and of the main file, because their names differ.
-/

namespace TypedPhp

/-! ## Reading declarations off the files -/

/-- The class that a top-level node declares, with its methods. -/
def RootNode.class? : RootNode → Option (ClassType × List FuncDecl)
  | classDecl type methods => some (type, methods)
  | _ => none

/-- The name of the class that a top-level node declares. -/
def RootNode.className? (n : RootNode) : Option String := n.class?.map (·.1.name)

/-- The function that a top-level node declares. -/
def RootNode.function? : RootNode → Option FuncDecl
  | func d => some d
  | _ => none

/-- The functions at the top level of a file. -/
def File.functions (file : File) : List FuncDecl := file.nodes.filterMap RootNode.function?

namespace Program

/-- The classes of a program, with their methods. -/
def classes (p : Program) : List (ClassType × List FuncDecl) :=
  p.files.flatMap fun file => file.nodes.filterMap RootNode.class?

/-- The functions at the top level of the files of a program. -/
def functions (p : Program) : List FuncDecl := p.files.flatMap File.functions

/-- A program declares one class of a name, of this type and with these methods. -/
def DeclaresClass (p : Program) (name : String) (type : ClassType) (methods : List FuncDecl) :
    Prop :=
  p.classes.filter (·.1.name == name) = [(type, methods)]

/-- A program declares one function of the name of this one: no file declares another one. -/
def DeclaresFunction (p : Program) (d : FuncDecl) : Prop :=
  p.functions.filter (·.type.name == d.type.name) = [d]

end Program

/-! ## Lists without repeated names -/

/-- Among different names, an element is the only one of its name. -/
theorem filter_name_eq {α : Type} {name : α → String} {xs : List α} (hd : (xs.map name).Nodup)
    {x : α} (hx : x ∈ xs) : xs.filter (name · == name x) = [x] := by
  induction xs with
  | nil => cases hx
  | cons y ys ih =>
      rw [List.map_cons, List.nodup_cons] at hd
      rcases List.mem_cons.1 hx with rfl | hx
      · have hnone : ys.filter (name · == name x) = [] := by
          rw [List.filter_eq_nil_iff]
          intro z hz heq
          apply hd.1
          rw [← eq_of_beq heq]
          exact List.mem_map_of_mem hz
        rw [List.filter_cons_of_pos (by simp), hnone]
      · have hne : (name y == name x) = false := by
          rw [beq_eq_false_iff_ne]
          intro heq
          apply hd.1
          rw [heq]
          exact List.mem_map_of_mem hx
        rw [List.filter_cons_of_neg (by simp [hne]), ih hd.2 hx]

/-- What is sorted by a number below `n` is all there again, in some order. -/
theorem flatMap_filter_perm {α : Type} {n : Nat} (key : α → Nat) {xs : List α}
    (h : ∀ x ∈ xs, key x < n) :
    ((List.range n).flatMap fun i => xs.filter fun x => key x = i).Perm xs := by
  induction xs with
  | nil => simp
  | cons x xs ih =>
      have hx : key x < n := h x List.mem_cons_self
      have hrest := ih fun y hy => h y (List.mem_cons_of_mem x hy)
      have hhead : ((List.range n).flatMap fun i => [x].filter fun x => key x = i) = [x] := by
        -- Only the place of its own number gets the first element.
        obtain ⟨before, after, hsplit⟩ := List.append_of_mem (List.mem_range.2 hx)
        have hnodup : (before ++ key x :: after).Nodup := by
          rw [← hsplit]
          exact List.nodup_range
        have hnone : ∀ is : List Nat, key x ∉ is →
            (is.flatMap fun i => [x].filter fun x => key x = i) = [] := by
          intro is his
          rw [List.flatMap_eq_nil_iff]
          intro i hi
          have hne : key x ≠ i := by
            rintro rfl
            exact his hi
          simp [hne]
        rw [List.nodup_append, List.nodup_cons] at hnodup
        have hbefore : key x ∉ before := fun hmem =>
          hnodup.2.2 _ hmem _ List.mem_cons_self rfl
        rw [hsplit, List.flatMap_append, List.flatMap_cons, hnone before hbefore,
          hnone after hnodup.2.1.1]
        simp
      have hsplit : (List.range n).flatMap (fun i => (x :: xs).filter fun x => key x = i) =
          (List.range n).flatMap fun i =>
            ([x].filter fun x => key x = i) ++ xs.filter fun x => key x = i := by
        simp only [← List.filter_append, List.singleton_append]
      rw [hsplit]
      refine (List.flatMap_append_perm _ _ _).symm.trans ?_
      rw [hhead]
      exact hrest.cons x

/-- What is dealt out to at least one place is all there again, in some order. -/
theorem share_perm {α : Type} {n : Nat} (hn : 0 < n) (xs : List α) :
    ((List.range n).flatMap fun i => share n i xs).Perm xs := by
  have hbelow : ∀ x ∈ xs.zipIdx, x.2 % n < n := fun x _ => Nat.mod_lt x.2 hn
  have hkeys := flatMap_filter_perm (fun x : α × Nat => x.2 % n) hbelow
  have hmap := hkeys.map (·.1)
  rw [List.map_flatMap, List.zipIdx_map_fst] at hmap
  exact hmap

namespace Program.Parts

variable {config : Config} {t : SymbolTable} {q : Parts}

/-! ## Classes -/

/-- The classes of the library files are those that are dealt out to them. -/
theorem libraries_classes (classes : List RootNode) (libs : List (List FuncDecl)) :
    (libraries classes libs).flatMap (fun file => file.nodes.filterMap RootNode.class?) =
      ((List.range libs.length).flatMap fun i => share libs.length i classes).filterMap
        RootNode.class? := by
  -- The functions of a file declare no class.
  have hfuncs : ∀ ds : List FuncDecl, (ds.map RootNode.func).filterMap RootNode.class? = [] := by
    intro ds
    rw [List.filterMap_map, List.filterMap_eq_nil_iff]
    exact fun _ _ => rfl
  have hplaces : libs.zipIdx.map (·.2) = List.range libs.length := by
    rw [List.zipIdx_map_snd, List.range_eq_range']
  rw [libraries, List.flatMap_map, List.filterMap_flatMap, ← hplaces, List.flatMap_map]
  simp only [List.filterMap_append, hfuncs, List.append_nil]

/-- The classes of a program are all there, in some order. -/
theorem classes_perm (q : Parts) :
    q.program.classes.Perm (q.classes.filterMap RootNode.class?) := by
  have hrequires : ∀ paths : List String,
      (paths.map RootNode.require).filterMap RootNode.class? = [] := by
    intro paths
    rw [List.filterMap_map, List.filterMap_eq_nil_iff]
    exact fun _ _ => rfl
  have hfuncs : (q.funcs.map RootNode.func ++
      [RootNode.func q.entry, RootNode.stmt (.call "main" [])]).filterMap RootNode.class? = [] := by
    rw [List.filterMap_append, List.filterMap_map]
    simp [Function.comp_def, RootNode.class?]
  have hmain : q.mainFile.nodes.filterMap RootNode.class? =
      (if (libraries q.classes q.libs).isEmpty then q.classes else []).filterMap
        RootNode.class? := by
    rw [mainFile, List.filterMap_append, List.filterMap_append, hrequires, hfuncs,
      List.append_nil, List.append_nil]
  rw [Program.classes, program, List.flatMap_append, libraries_classes, List.flatMap_singleton,
    hmain]
  -- Either there is a library file to deal the classes out to, or the main file holds them.
  cases hlibs : q.libs with
  | nil => simp [libraries]
  | cons ds libs =>
      have hnonempty : (libraries q.classes (ds :: libs)).isEmpty = false := by simp [libraries]
      rw [hnonempty]
      simp only [Bool.false_eq_true, if_false, List.filterMap_nil, List.append_nil]
      exact (share_perm (by simp) q.classes).filterMap RootNode.class?

theorem class?_of_built {i : Nat} {n : RootNode} (h : n.ClassBuilt config t i) :
    ∃ type methods, n.class? = some (type, methods) ∧ type.name = className i := by
  obtain ⟨hdrawn, -, -, -⟩ := h
  exact ⟨_, _, rfl, hdrawn.name⟩

/-- The classes of a built program are numbered. -/
theorem Built.classes_named (h : q.Built config t) :
    (q.classes.filterMap RootNode.class?).map (·.1.name) =
      (List.range t.classes.length).map className := by
  have hall := h.classes
  generalize List.range t.classes.length = ids at hall ⊢
  generalize q.classes = ns at hall ⊢
  induction hall with
  | nil => rfl
  | cons hn _ ih =>
      obtain ⟨type, methods, hclass, hname⟩ := class?_of_built hn
      rw [List.filterMap_cons_some hclass, List.map_cons, List.map_cons, ih, hname]

/-- A built program declares every class of the table once. -/
theorem Built.declaresClass (h : q.Built config t) {c : ClassRef}
    (hc : t.classNames[c.id]? = some c.name) :
    ∃ (n : RootNode) (type : ClassType) (methods : List FuncDecl), n.ClassBuilt config t c.id ∧
      n.class? = some (type, methods) ∧ q.program.DeclaresClass c.name type methods := by
  obtain ⟨hi, -⟩ := List.getElem?_eq_some_iff.1 hc
  rw [SymbolTable.classNames, List.length_map] at hi
  have hname : c.name = className c.id := by
    rw [h.classNames, List.getElem?_map, List.getElem?_range hi] at hc
    exact (Option.some.inj hc).symm
  -- The class stands at its number in the list of those that are built.
  have hlen : c.id < q.classes.length := by
    rw [← h.classes.length_eq, List.length_range]
    exact hi
  have hbuilt : q.classes[c.id].ClassBuilt config t c.id := by
    have hget := List.Forall₂.get h.classes (i := c.id) (by simpa using hi) hlen
    simpa using hget
  obtain ⟨type, methods, hclass, htype⟩ := class?_of_built hbuilt
  refine ⟨_, type, methods, hbuilt, hclass, ?_⟩
  have hmem : (type, methods) ∈ q.classes.filterMap RootNode.class? :=
    List.mem_filterMap.2 ⟨_, List.getElem_mem hlen, hclass⟩
  have hnodup : ((q.classes.filterMap RootNode.class?).map (·.1.name)).Nodup :=
    nodup_of_map_eq h.classes_named fun i j hij => numbered_inj hij
  have honly := filter_name_eq hnodup hmem
  rw [show type.name = c.name from htype.trans hname.symm] at honly
  rw [DeclaresClass, ← List.perm_singleton, ← honly]
  exact (classes_perm q).filter _

/-! ## Functions -/

/-- The name of a library file is not that of the main file. -/
theorem libFileName_ne_main (i : Nat) : libFileName i ≠ mainFileName := by
  apply ne_of_head
  have hhead : (libFileName i).toList.head? = some 'l' := by
    simp [libFileName, String.toList_append]
  rw [hhead]
  decide

theorem functions_of_decls (ds : List FuncDecl) :
    (ds.map RootNode.func).filterMap RootNode.function? = ds := by
  rw [List.filterMap_map]
  exact List.filterMap_some

/-- The classes of a built program declare no functions at the top level. -/
theorem Built.functions_of_classes (h : q.Built config t) {ns : List RootNode}
    (hns : ∀ n ∈ ns, n ∈ q.classes) : ns.filterMap RootNode.function? = [] := by
  rw [List.filterMap_eq_nil_iff]
  intro n hn
  obtain ⟨i, hbuilt⟩ := h.ofClass (hns n hn)
  obtain ⟨-, -, -, -⟩ := hbuilt
  rfl

/-- The functions of the library files of a built program. -/
theorem Built.libraries_functions (h : q.Built config t) :
    (libraries q.classes q.libs).flatMap File.functions = q.libs.flatten := by
  have hshare : ∀ i, (share q.libs.length i q.classes).filterMap RootNode.function? = [] :=
    fun i => h.functions_of_classes fun n hn => mem_of_mem_share hn
  rw [libraries, List.flatMap_map]
  simp only [File.functions, List.filterMap_append, hshare, functions_of_decls, List.nil_append]
  rw [List.flatMap_def, List.zipIdx_map_fst]

/-- The functions of the main file of a built program. -/
theorem Built.mainFile_functions (h : q.Built config t) :
    q.mainFile.functions = q.funcs ++ [q.entry] := by
  have hown : (if (libraries q.classes q.libs).isEmpty then q.classes else []).filterMap
      RootNode.function? = [] := by
    apply h.functions_of_classes
    intro n hn
    split at hn
    · exact hn
    · cases hn
  have hrequires : ∀ paths : List String,
      (paths.map RootNode.require).filterMap RootNode.function? = [] := by
    intro paths
    rw [List.filterMap_map, List.filterMap_eq_nil_iff]
    exact fun _ _ => rfl
  rw [File.functions, mainFile, List.filterMap_append, List.filterMap_append,
    List.filterMap_append, hown, hrequires, functions_of_decls]
  rfl

/-- The functions of a built program are those of the library files and of the main file. -/
theorem Built.functions_eq (h : q.Built config t) :
    q.program.functions = q.libs.flatten ++ (q.funcs ++ [q.entry]) := by
  rw [Program.functions, program, List.flatMap_append, h.libraries_functions,
    List.flatMap_singleton, h.mainFile_functions]

/-- The names of the library functions of a built program differ. -/
theorem Built.libNames_nodup (h : q.Built config t) :
    (q.libs.flatten.map (·.type.name)).Nodup := by
  have hnames : ∀ i ds, q.libs[i]? = some ds →
      ∃ n, ds.map (·.type.name) = (List.range n).map (libFuncName i) := by
    intro i ds hi
    obtain ⟨n, hn⟩ := (h.libTypes i ds hi).names
    rw [List.map_map] at hn
    exact ⟨n, hn⟩
  rw [List.map_flatten, List.nodup_flatten]
  constructor
  · intro names hmem
    obtain ⟨ds, hds, rfl⟩ := List.mem_map.1 hmem
    obtain ⟨i, hi⟩ := List.mem_iff_getElem?.1 hds
    obtain ⟨n, hn⟩ := hnames i ds hi
    exact nodup_of_map_eq hn fun k l hkl => (libFuncName_inj hkl).2
  -- Names of different files have different numbers in front.
  · rw [List.pairwise_map, List.pairwise_iff_getElem]
    intro i j hi hj hij name hmem hmem'
    obtain ⟨n, hn⟩ := hnames i q.libs[i] (List.getElem?_eq_getElem hi)
    obtain ⟨m, hm⟩ := hnames j q.libs[j] (List.getElem?_eq_getElem hj)
    rw [hn] at hmem
    rw [hm] at hmem'
    obtain ⟨k, -, hk⟩ := List.mem_map.1 hmem
    obtain ⟨l, -, hl⟩ := List.mem_map.1 hmem'
    exact absurd (libFuncName_inj (hk.trans hl.symm)).1 (Nat.ne_of_lt hij)

/-- The name of a library function of a built program. -/
theorem Built.libName (h : q.Built config t) {d : FuncDecl} (hd : d ∈ q.libs.flatten) :
    ∃ i k, d.type.name = libFuncName i k := by
  obtain ⟨ds, hds, hd⟩ := List.mem_flatten.1 hd
  obtain ⟨i, hi⟩ := List.mem_iff_getElem?.1 hds
  obtain ⟨n, hn⟩ := (h.libTypes i ds hi).names
  rw [List.map_map] at hn
  exact ⟨i, exists_name_of_map_eq hn d hd⟩

/-- A library function of a built program belongs to no class. -/
theorem Built.libOwner (h : q.Built config t) {d : FuncDecl} (hd : d ∈ q.libs.flatten) :
    d.type.owner = none := by
  obtain ⟨ds, hds, hd⟩ := List.mem_flatten.1 hd
  obtain ⟨i, hi⟩ := List.mem_iff_getElem?.1 hds
  exact ((h.libTypes i ds hi).drawn d.type (List.mem_map_of_mem hd)).2

theorem Built.funcName (h : q.Built config t) {d : FuncDecl} (hd : d ∈ q.funcs) :
    ∃ i, d.type.name = mainFuncName i := by
  obtain ⟨n, hn⟩ := h.funcNames
  exact exists_name_of_map_eq hn d hd

/-- The functions of a built program have different names. -/
theorem Built.functionNames_nodup (h : q.Built config t) :
    (q.program.functions.map (·.type.name)).Nodup := by
  have hentry : q.entry.type.name = "main" := by
    rw [h.entry.type]
    rfl
  rw [h.functions_eq, List.map_append, List.map_append, List.nodup_append, List.nodup_append]
  -- Library functions begin with `l`, functions of the main file with `f`, and the last with `m`.
  refine ⟨h.libNames_nodup, ⟨?_, List.nodup_singleton _, ?_⟩, ?_⟩
  · obtain ⟨n, hn⟩ := h.funcNames
    exact nodup_of_map_eq hn fun i j hij => numbered_inj hij
  · rintro x hx y hy rfl
    obtain ⟨d, hd, rfl⟩ := List.mem_map.1 hx
    obtain ⟨i, hi⟩ := h.funcName hd
    rw [List.map_singleton, List.mem_singleton, hentry, hi] at hy
    refine ne_of_head ?_ hy
    simp [mainFuncName, String.toList_append]
  · rintro x hx y hy rfl
    obtain ⟨d, hd, rfl⟩ := List.mem_map.1 hx
    obtain ⟨i, k, hname⟩ := h.libName hd
    have hhead : (libFuncName i k).toList.head? = some 'l' := by
      simp [libFuncName, String.toList_append]
    rw [hname] at hy
    rcases List.mem_append.1 hy with hy | hy
    · obtain ⟨d', hd', heq⟩ := List.mem_map.1 hy
      obtain ⟨j, hj⟩ := h.funcName hd'
      refine ne_of_head ?_ (hj.symm.trans heq)
      rw [hhead]
      simp [mainFuncName, String.toList_append]
    · rw [List.map_singleton, List.mem_singleton, hentry] at hy
      refine ne_of_head ?_ hy
      rw [hhead]
      decide

/-- A built program declares every function of its files once. -/
theorem Built.declaresFunction (h : q.Built config t) {d : FuncDecl}
    (hd : d ∈ q.program.functions) : q.program.DeclaresFunction d :=
  filter_name_eq h.functionNames_nodup hd

end Program.Parts

end TypedPhp
