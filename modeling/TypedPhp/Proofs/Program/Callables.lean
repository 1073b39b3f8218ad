import TypedPhp.Proofs.Exec.Calls

set_option autoImplicit false

/-!
# Functions and methods of a program

The functions and methods of a program by the places where they are declared. In a built program
they have different qualified names: that of a member of a class begins with the class, and no other
function is named like a class.
-/

namespace TypedPhp

variable {config : Config} {t : SymbolTable} {q : Program.Parts} {d : FuncDecl}

/-! ## Functions of a program by their places -/

/-- The statement that stands at the top level of a file. -/
def RootNode.stmt? : RootNode → Option Node
  | stmt n => some n
  | _ => none

namespace Program

/-- The functions of the library files. -/
def libFunctions (p : Program) : List FuncDecl :=
  (p.files.filter (·.name != mainFileName)).flatMap File.functions

/-- The functions of the main file. -/
def mainFunctions (p : Program) : List FuncDecl :=
  (p.files.filter (·.name == mainFileName)).flatMap File.functions

/-- The constructors of the classes. -/
def constructors (p : Program) : List FuncDecl :=
  p.methods.filter (·.type.name == "__construct")

/-- The functions and methods that calls of other functions may reach: those of the library files,
and the methods that are no constructors. -/
def guarded (p : Program) : List FuncDecl :=
  p.libFunctions ++ p.methods.filter (·.type.name != "__construct")

/-- The statements at the top level of the files. -/
def rootStmts (p : Program) : List Node :=
  p.files.flatMap fun file => file.nodes.filterMap RootNode.stmt?

/-- The defaults of the parameters and the initial values of the fields. -/
def constants (p : Program) : List Node :=
  p.callables.flatMap (fun d => d.type.params.filterMap (·.default)) ++
    p.classes.flatMap fun c => c.1.fields.filterMap (·.init)

/-- The trees of a program: its statements at the top level, its bodies and its constants. -/
def trees (p : Program) : List Node :=
  p.rootStmts ++ p.callables.flatMap (·.body) ++ p.constants

end Program

/-! ## Names -/

/-- The qualified name of a member of a class tells the class. -/
theorem className_append_inj {i j : Nat} {x y : String}
    (h : className i ++ "::" ++ x = className j ++ "::" ++ y) : i = j := by
  have hassoc : ∀ i x, className i ++ "::" ++ x = "C" ++ toString i ++ ("::" ++ x) :=
    fun _ _ => String.append_assoc
  rw [hassoc, hassoc] at h
  exact (numbered_append_inj (by simp [String.toList_append]) (by simp [String.toList_append]) h).1

/-- A class has at most one constructor. -/
theorem ClassType.constructors_types (type : ClassType) (c : ClassRef) :
    (type.constructors c).map (·.type) = [] ∨
      (type.constructors c).map (·.type) = [.method "__construct" [] .void c] := by
  unfold constructors
  split
  · exact Or.inl rfl
  · exact Or.inr rfl

/-- A function is the constructor of a class that is drawn over the classes of a table. -/
def FuncDecl.IsConstructor (t : SymbolTable) (d : FuncDecl) : Prop :=
  ∃ (type : ClassType) (i : Nat),
    type.Drawn t.classNames ((List.range i).map .numbered) (.numbered i) ∧
      d ∈ type.constructors (.numbered i)

/-- The methods of a built class are named after it, and their names differ. -/
theorem RootNode.ClassBuilt.methodNames {i : Nat} {n : RootNode} (h : n.ClassBuilt config t i) :
    ∃ type methods, n.class? = some (type, methods) ∧
      (methods.map (·.type.qualifiedName)).Nodup ∧
      ∀ m ∈ methods, ∃ x, m.type.qualifiedName = className i ++ "::" ++ x := by
  obtain ⟨hdrawn, -, -, htypes⟩ := h
  rename_i type methods
  refine ⟨_, _, rfl, ?_⟩
  obtain ⟨n, hn⟩ := hdrawn.qualifiedNames
  have hmethods : methods.map (·.type.qualifiedName) = (List.range n).map (memberName i) := by
    rw [← hn, ← htypes, List.map_map]
    rfl
  have hmember : ∀ m ∈ methods, ∃ k, m.type.qualifiedName = memberName i k :=
    exists_name_of_map_eq hmethods
  have hnodup := nodup_of_map_eq hmethods fun k l hkl => (memberName_inj hkl).2
  have hconstructor : ∀ m ∈ type.constructors (.numbered i),
      m.type.qualifiedName = className i ++ "::" ++ "__construct" := by
    intro m hm
    rw [(ClassType.constructors_create hm).1]
    rfl
  constructor
  · rw [List.map_append, List.nodup_append]
    refine ⟨?_, hnodup, ?_⟩
    · have hnames : (type.constructors (.numbered i)).map (·.type.qualifiedName) =
          ((type.constructors (.numbered i)).map (·.type)).map (·.qualifiedName) := by
        rw [List.map_map]
        rfl
      rw [hnames]
      rcases type.constructors_types (.numbered i) with heq | heq
      · rw [heq]
        exact List.nodup_nil
      · rw [heq]
        exact List.nodup_singleton _
    -- A constructor begins with an underscore, and every other method with `m`.
    · rintro x hx y hy rfl
      obtain ⟨m, hm, rfl⟩ := List.mem_map.1 hx
      obtain ⟨m', hm', heq⟩ := List.mem_map.1 hy
      obtain ⟨k, hk⟩ := hmember m' hm'
      rw [hk, hconstructor m hm] at heq
      refine ne_of_head ?_ ((String.append_right_inj _).1 heq)
      simp [methodName, String.toList_append]
  · intro m hm
    rcases List.mem_append.1 hm with hm | hm
    · exact ⟨_, hconstructor m hm⟩
    · obtain ⟨k, hk⟩ := hmember m hm
      exact ⟨_, hk⟩

/-- The methods of built classes of different numbers have different names. -/
theorem methodNames_nodup {ids : List Nat} {ns : List RootNode} (hids : ids.Nodup)
    (h : List.Forall₂ (RootNode.ClassBuilt config t) ids ns) :
    (((ns.filterMap RootNode.class?).flatMap (·.2)).map (·.type.qualifiedName)).Nodup ∧
      ∀ m ∈ (ns.filterMap RootNode.class?).flatMap (·.2),
        ∃ i ∈ ids, ∃ x, m.type.qualifiedName = className i ++ "::" ++ x := by
  induction h with
  | nil => exact ⟨List.nodup_nil, nofun⟩
  | @cons i n ids ns hn _ ih =>
      rw [List.nodup_cons] at hids
      obtain ⟨hrest, hnamed⟩ := ih hids.2
      obtain ⟨type, methods, hclass, hmethods, hown⟩ := hn.methodNames
      rw [List.filterMap_cons_some hclass, List.flatMap_cons]
      constructor
      · rw [List.map_append, List.nodup_append]
        refine ⟨hmethods, hrest, ?_⟩
        rintro x hx y hy rfl
        obtain ⟨m, hm, rfl⟩ := List.mem_map.1 hx
        obtain ⟨m', hm', heq⟩ := List.mem_map.1 hy
        obtain ⟨x, hx⟩ := hown m hm
        obtain ⟨j, hj, y, hy⟩ := hnamed m' hm'
        rw [hx, hy] at heq
        rw [className_append_inj heq] at hj
        exact hids.1 hj
      · intro m hm
        rcases List.mem_append.1 hm with hm | hm
        · obtain ⟨x, hx⟩ := hown m hm
          exact ⟨i, List.mem_cons_self, x, hx⟩
        · obtain ⟨j, hj, hx⟩ := hnamed m hm
          exact ⟨j, List.mem_cons_of_mem i hj, hx⟩

namespace Program.Parts

theorem methods_perm (q : Parts) :
    q.program.methods.Perm ((q.classes.filterMap RootNode.class?).flatMap (·.2)) :=
  (classes_perm q).flatMap_right _

/-- The methods of a built program have different names, each of which begins with its class. -/
theorem Built.methods_named (h : q.Built config t) :
    (q.program.methods.map (·.type.qualifiedName)).Nodup ∧
      ∀ m ∈ q.program.methods, ∃ i x, m.type.qualifiedName = className i ++ "::" ++ x := by
  obtain ⟨hnodup, hnamed⟩ := methodNames_nodup List.nodup_range h.classes
  refine ⟨((methods_perm q).map _).nodup_iff.2 hnodup, fun m hm => ?_⟩
  obtain ⟨i, -, hx⟩ := hnamed m ((methods_perm q).mem_iff.1 hm)
  exact ⟨i, hx⟩

/-- A function of a built program belongs to no class. -/
theorem Built.functionOwner (h : q.Built config t) (hd : d ∈ q.program.functions) :
    d.type.owner = none := by
  rw [h.functions_eq] at hd
  rcases List.mem_append.1 hd with hd | hd
  · exact h.libOwner hd
  · rcases List.mem_append.1 hd with hd | hd
    · exact (h.funcs d hd).2
    · rw [List.mem_singleton.1 hd, h.entry.type]
      rfl

theorem Built.function_qualifiedName (h : q.Built config t) (hd : d ∈ q.program.functions) :
    d.type.qualifiedName = d.type.name := by
  rw [FuncType.qualifiedName, h.functionOwner hd]

/-- No function of a built program is named like a member of a class. -/
theorem Built.functionName_head (h : q.Built config t) (hd : d ∈ q.program.functions) :
    d.type.name.toList.head? ≠ some 'C' := by
  rw [h.functions_eq] at hd
  rcases List.mem_append.1 hd with hd | hd
  · obtain ⟨i, k, hname⟩ := h.libName hd
    rw [hname]
    simp [libFuncName, String.toList_append]
  · rcases List.mem_append.1 hd with hd | hd
    · obtain ⟨i, hname⟩ := h.funcName hd
      rw [hname]
      simp [mainFuncName, String.toList_append]
    · rw [List.mem_singleton.1 hd, h.entry.type]
      decide

/-- The functions and methods of a built program have different qualified names. -/
theorem Built.callables_nodup (h : q.Built config t) :
    (q.program.callables.map (·.type.qualifiedName)).Nodup := by
  obtain ⟨hmethods, hnamed⟩ := h.methods_named
  rw [callables, List.map_append, List.nodup_append]
  refine ⟨?_, hmethods, ?_⟩
  · rw [List.map_congr_left fun d hd => h.function_qualifiedName hd]
    exact h.functionNames_nodup
  · rintro x hx y hy rfl
    obtain ⟨d, hd, rfl⟩ := List.mem_map.1 hx
    obtain ⟨m, hm, heq⟩ := List.mem_map.1 hy
    obtain ⟨i, x, hname⟩ := hnamed m hm
    apply h.functionName_head hd
    rw [← h.function_qualifiedName hd, ← heq, hname]
    simp [className, String.toList_append]

end Program.Parts

/-! ## Places of a built program -/

namespace Program.Parts

theorem libraries_name {classes : List RootNode} {libs : List (List FuncDecl)} {file : File}
    (h : file ∈ libraries classes libs) : file.name ≠ mainFileName := by
  obtain ⟨⟨decls, i⟩, -, rfl⟩ := List.mem_map.1 h
  exact libFileName_ne_main i

/-- The library functions of a built program. -/
theorem Built.libFunctions_eq (h : q.Built config t) :
    q.program.libFunctions = q.libs.flatten := by
  have hlibs : (libraries q.classes q.libs).filter (·.name != mainFileName) =
      libraries q.classes q.libs :=
    List.filter_eq_self.2 fun file hfile => bne_iff_ne.2 (libraries_name hfile)
  have hmain : [q.mainFile].filter (·.name != mainFileName) = [] := rfl
  rw [libFunctions, program, List.filter_append, hlibs, hmain, List.append_nil,
    h.libraries_functions]

/-- The functions of the main file of a built program. -/
theorem Built.mainFunctions_eq (h : q.Built config t) :
    q.program.mainFunctions = q.funcs ++ [q.entry] := by
  have hlibs : (libraries q.classes q.libs).filter (·.name == mainFileName) = [] := by
    rw [List.filter_eq_nil_iff]
    intro file hfile heq
    exact libraries_name hfile (eq_of_beq heq)
  have hmain : [q.mainFile].filter (·.name == mainFileName) = [q.mainFile] := rfl
  rw [Program.mainFunctions, program, List.filter_append, hlibs, hmain, List.nil_append,
    List.flatMap_singleton, h.mainFile_functions]

/-- The statements at the top level of a built program: the last one of the main file. -/
theorem Built.rootStmts_eq (h : q.Built config t) :
    q.program.rootStmts = [.call "main" []] := by
  -- Classes, functions and inclusions are no statements, in whichever file they stand.
  have hclasses : ∀ ns : List RootNode, (∀ n ∈ ns, n ∈ q.classes) →
      ns.filterMap RootNode.stmt? = [] := by
    intro ns hns
    rw [List.filterMap_eq_nil_iff]
    intro n hn
    obtain ⟨i, hbuilt⟩ := h.ofClass (hns n hn)
    obtain ⟨-, -, -, -⟩ := hbuilt
    rfl
  have hfuncs : ∀ ds : List FuncDecl, (ds.map RootNode.func).filterMap RootNode.stmt? = [] := by
    intro ds
    rw [List.filterMap_map, List.filterMap_eq_nil_iff]
    exact fun _ _ => rfl
  have hrequires : ∀ paths : List String,
      (paths.map RootNode.require).filterMap RootNode.stmt? = [] := by
    intro paths
    rw [List.filterMap_map, List.filterMap_eq_nil_iff]
    exact fun _ _ => rfl
  have hlibs : (libraries q.classes q.libs).flatMap
      (fun file => file.nodes.filterMap RootNode.stmt?) = [] := by
    rw [libraries, List.flatMap_map, List.flatMap_eq_nil_iff]
    intro x _
    rw [List.filterMap_append, hfuncs, hclasses _ fun n hn => mem_of_mem_share hn]
    rfl
  have hown : (if (libraries q.classes q.libs).isEmpty then q.classes else []).filterMap
      RootNode.stmt? = [] := by
    apply hclasses
    intro n hn
    split at hn
    · exact hn
    · cases hn
  rw [rootStmts, program, List.flatMap_append, hlibs, List.flatMap_singleton, mainFile,
    List.filterMap_append, List.filterMap_append, List.filterMap_append, hown, hrequires, hfuncs]
  rfl

/-- A method of a built program is a constructor, or is built with a guard. -/
theorem Built.method (h : q.Built config t) (hd : d ∈ q.program.methods) :
    (d.type.name = "__construct" ∧ d.IsConstructor t) ∨
      (d.type.name ≠ "__construct" ∧ d.Built config t true) := by
  obtain ⟨c, hc, hd⟩ := List.mem_flatMap.1 ((methods_perm q).mem_iff.1 hd)
  obtain ⟨n, hn, hclass⟩ := List.mem_filterMap.1 hc
  obtain ⟨i, hbuilt⟩ := h.ofClass hn
  obtain ⟨hdrawn, -, hmethods, htypes⟩ := hbuilt
  obtain rfl := Option.some.inj hclass
  rcases List.mem_append.1 hd with hd | hd
  · refine Or.inl ⟨?_, _, _, hdrawn, hd⟩
    rw [(ClassType.constructors_create hd).1]
    rfl
  · refine Or.inr ⟨?_, hmethods d hd⟩
    obtain ⟨n, hn⟩ := hdrawn.names
    have hmem : d.type ∈ _ := List.mem_map_of_mem (f := (·.type)) hd
    rw [htypes] at hmem
    obtain ⟨k, hk⟩ := exists_name_of_map_eq hn d.type hmem
    rw [hk]
    apply ne_of_head
    simp [methodName, String.toList_append]

/-- Every function of a built program that is reached by calls of other functions is built with a
guard. -/
theorem Built.ofGuarded (h : q.Built config t) (hd : d ∈ q.program.guarded) :
    d.Built config t true := by
  rcases List.mem_append.1 hd with hd | hd
  · rw [h.libFunctions_eq] at hd
    exact h.ofLibrary hd
  · obtain ⟨hd, hname⟩ := List.mem_filter.1 hd
    rcases h.method hd with ⟨heq, -⟩ | ⟨-, hbuilt⟩
    · exact absurd heq (bne_iff_ne.1 hname)
    · exact hbuilt

/-- A constructor of a built program is that of a drawn class. -/
theorem Built.ofConstructor (h : q.Built config t) (hd : d ∈ q.program.constructors) :
    d.IsConstructor t := by
  obtain ⟨hd, hname⟩ := List.mem_filter.1 hd
  rcases h.method hd with ⟨-, hconstructor⟩ | ⟨hne, -⟩
  · exact hconstructor
  · exact absurd (eq_of_beq hname) hne

/-- What can be called in a built program: guarded functions, those of the main file, and
constructors. -/
theorem Built.callables_perm (h : q.Built config t) : q.program.callables.Perm
    (q.program.guarded ++ (q.program.mainFunctions ++ q.program.constructors)) := by
  have hfunctions : q.program.functions = q.program.libFunctions ++ q.program.mainFunctions := by
    rw [h.functions_eq, h.libFunctions_eq, h.mainFunctions_eq]
  have hmethods : q.program.methods.Perm (q.program.methods.filter (·.type.name != "__construct") ++
      q.program.constructors) :=
    (List.filter_append_perm (·.type.name == "__construct") _).symm.trans List.perm_append_comm
  rw [callables, hfunctions, guarded, List.append_assoc, List.append_assoc]
  refine List.Perm.append_left _ ((hmethods.append_left _).trans ?_)
  exact List.perm_append_comm_assoc _ _ _

/-- What can be called in a built program is built, or calls the functions of the main file, or is a
constructor. -/
theorem Built.callable_cases (h : q.Built config t) (hd : d ∈ q.program.callables) :
    (∃ isGuarded, d.Built config t isGuarded) ∨ d = q.entry ∨ d.IsConstructor t := by
  rcases List.mem_append.1 (h.callables_perm.mem_iff.1 hd) with hd | hd
  · exact Or.inl ⟨true, h.ofGuarded hd⟩
  · rcases List.mem_append.1 hd with hd | hd
    · rw [h.mainFunctions_eq] at hd
      rcases List.mem_append.1 hd with hd | hd
      · exact Or.inl ⟨false, (h.funcs d hd).1⟩
      · exact Or.inr (Or.inl (List.mem_singleton.1 hd))
    · exact Or.inr (Or.inr (h.ofConstructor hd))

/-- The constants of a built program are constants of types, and can be written. -/
theorem Built.ofConstant (h : q.Built config t) {n : Node} (hn : n ∈ q.program.constants) :
    ∃ type, ConstantOf type n ∧ n.Every Node.Writable := by
  rcases List.mem_append.1 hn with hn | hn
  · obtain ⟨d, hd, hn⟩ := List.mem_flatMap.1 hn
    obtain ⟨p, hp, hdefault⟩ := List.mem_filterMap.1 hn
    have hnone : d.type.params ≠ [] := List.ne_nil_of_mem hp
    rcases h.callable_cases hd with ⟨isGuarded, hbuilt⟩ | rfl | ⟨type, i, -, hd⟩
    · have hconst := (hbuilt.drawn.params p hp).default n hdefault
      exact ⟨p.type, hconst.constant, hconst.writable (hbuilt.drawn.within p hp).writable⟩
    -- Neither the function that calls the others nor a constructor has a parameter.
    · rw [h.entry.type] at hnone
      exact absurd rfl hnone
    · rw [(ClassType.constructors_create hd).1] at hnone
      exact absurd rfl hnone
  · obtain ⟨c, hc, hn⟩ := List.mem_flatMap.1 hn
    obtain ⟨f, hf, hinit⟩ := List.mem_filterMap.1 hn
    obtain ⟨r, hr, hclass⟩ := List.mem_filterMap.1 ((classes_perm q).mem_iff.1 hc)
    obtain ⟨i, hbuilt⟩ := h.ofClass hr
    obtain ⟨hdrawn, -, -, -⟩ := hbuilt
    obtain rfl := Option.some.inj hclass
    have hfield := hdrawn.fields f hf
    exact ⟨f.type, hfield.init_constant hinit, hfield.init_writable hinit⟩

/-- The trees of a built program are the call that starts it, the statements of its functions,
and its constants. -/
theorem Built.forall_trees {R : Node → Prop} (h : q.Built config t)
    (start : R (.call "main" []))
    (body : ∀ d ∈ q.program.callables, ∀ s ∈ d.body, R s)
    (constant : ∀ n ∈ q.program.constants, R n) : ∀ n ∈ q.program.trees, R n := by
  intro n hn
  rcases List.mem_append.1 hn with hn | hn
  · rcases List.mem_append.1 hn with hn | hn
    · rw [h.rootStmts_eq] at hn
      rw [List.mem_singleton.1 hn]
      exact start
    · obtain ⟨d, hd, hn⟩ := List.mem_flatMap.1 hn
      exact body d hd n hn
  · exact constant n hn

end Program.Parts

end TypedPhp
