import TypedPhp.Generate.Program
import TypedPhp.Proofs.Decl.Bodies

set_option autoImplicit false

/-!
# Structure of generated programs

What a whole program consists of: classes and library functions with guarded bodies, the functions
of the main file, and the function that calls each of those once. `Program.Parts` is the list of
these declarations, and `Program.Parts.Built` says how they are numbered and what of them the symbol
table knows. `Build.program_runs` follows the building of a program from the state before the first
step. It admits the faults of an arbitrary set that tolerates the configuration, so it says both
what a program that is returned looks like and why one is returned.
-/

namespace TypedPhp

/-! ## Classes -/

/-- The class of number `i` is built: it is the one that is drawn for the table, and its methods are
built after its constructor. -/
inductive RootNode.ClassBuilt (config : Config) (t : SymbolTable) (i : Nat) : RootNode → Prop where
  | of {type : ClassType} {methods : List FuncDecl} :
      type.Drawn t.classNames ((List.range i).map .numbered) (.numbered i) →
      t.classes[i]? = some { type with isDefined := true } →
      (∀ m ∈ methods, m.Built config t true) → methods.map (·.type) = type.methods →
      ClassBuilt config t i
        (.classDecl { type with isDefined := true } (type.constructors (.numbered i) ++ methods))

/-- What a constructor of a class assigns: a new object to a field of the current one that holds
such objects and has no initial value. -/
inductive Node.Creates (type : ClassType) (c : ClassRef) : Node → Prop where
  | of {f : Field} {target : ClassRef} : f ∈ type.fields → f.type = .object target →
      f.init = none → Creates type c (.assign (.prop (.var "this" (.object c)) f.name)
        ((Node.newObject target.name).withType (.object target)))

/-- The statements of a constructor are creations. -/
theorem ClassType.creations_create (type : ClassType) (c : ClassRef) :
    ∀ s ∈ type.creations c, s.Creates type c := by
  intro s hs
  obtain ⟨f, hmem, hf⟩ := List.mem_filterMap.1 hs
  split at hf
  · rename_i target hty hinit
    obtain rfl := Option.some.inj hf
    rw [hty]
    exact .of hmem hty hinit
  · cases hf

/-- The constructors of a class create objects only. -/
theorem ClassType.constructors_create {type : ClassType} {c : ClassRef} {d : FuncDecl}
    (h : d ∈ type.constructors c) :
    d.type = .method "__construct" [] .void c ∧ ∀ s ∈ d.body, s.Creates type c := by
  unfold ClassType.constructors at h
  split at h
  · cases h
  · obtain rfl := List.mem_singleton.1 h
    refine ⟨rfl, ?_⟩
    exact type.creations_create c

/-! ## The function that calls the others -/

/-- Expressions that are passed to the first parameters of a function, and to all that need one. -/
structure Passes (env : Env) (b : Nat) (f : FuncType) (args : List Node) : Prop where
  enough : f.minArgs ≤ args.length
  notMore : args.length ≤ f.params.length
  values : ∀ p x, (p, x) ∈ f.params.zip args → Derives env b (.value p.type) x

/-- A call of a function, in a dump if what it returns can be dumped. -/
inductive EntryCall (env : Env) (b : Nat) (f : FuncType) : Node → Prop where
  | dump {args : List Node} : f.result.canDump = true → Passes env b f args →
      EntryCall env b f
        (.call "fuzz_dump" [.name "__LINE__", (Node.call f.name args).withType f.result])
  | call {args : List Node} : f.result.canDump = false → Passes env b f args →
      EntryCall env b f ((Node.call f.name args).withType f.result)

/-- A call of a function of the main file is formed, with no variable in it. -/
theorem EntryCall.formed {env : Env} {b : Nat} {f : FuncType} {n : Node}
    (hcast : env.symbols.Castable) (hvisible : env.scope.visible = [])
    (hclass : env.currentClass = none) (h : EntryCall env b f n) :
    n.Every (Node.Formed fun _ => False) := by
  have hnone : ∀ v, env.Known v → False := by
    rintro v (hv | ⟨c, hc, -⟩)
    · rw [hvisible] at hv
      cases hv
    · rw [hclass] at hc
      cases hc
  have hcall : ∀ args, Passes env b f args →
      ((Node.call f.name args).withType f.result).Every (Node.Formed fun _ => False) := by
    intro args hargs
    refine .call fun x hx => ?_
    obtain ⟨p, hzip⟩ := exists_mem_zip hargs.notMore hx
    exact ((hargs.values p x hzip).formed hcast trivial).mono fun _ hm => hm.mono hnone
  cases h with
  | dump _ hargs => exact .callTwo (.name _) (hcall _ hargs)
  | call _ hargs => exact hcall _ hargs

theorem EntryCall.call_op {env : Env} {b : Nat} {f : FuncType} {n : Node} (h : EntryCall env b f n) :
    n.op = .call := by
  cases h <;> rfl

/-- The function that calls the given ones is built, where nothing is in scope. -/
structure FuncDecl.EntryBuilt (config : Config) (t : SymbolTable) (funcs : List FuncType)
    (d : FuncDecl) : Prop where
  type : d.type = .function "main" [] .void
  tags : d.tags = d.type.docTags
  body : ∃ env b, env.config = config ∧ env.symbols = t ∧ env.scope.visible = [] ∧
    env.currentClass = none ∧ List.Forall₂ (EntryCall env b) funcs d.body

/-- Every statement of the function that calls the others is the call of one of them. -/
theorem FuncDecl.EntryBuilt.entryCall {config : Config} {t : SymbolTable} {ds : List FuncDecl}
    {d : FuncDecl} (h : d.EntryBuilt config t (ds.map (·.type))) {s : Node} (hs : s ∈ d.body) :
    ∃ m ∈ ds, ∃ env b, env.symbols = t ∧ env.scope.visible = [] ∧ env.currentClass = none ∧
      EntryCall env b m.type s := by
  obtain ⟨env, b, -, hsymbols, hvisible, hclass, hcalls⟩ := h.body
  rw [List.forall₂_map_left_iff] at hcalls
  obtain ⟨m, hzip⟩ := exists_mem_zip (Nat.le_of_eq hcalls.length_eq.symm) hs
  exact ⟨m, (List.of_mem_zip hzip).1, env, b, hsymbols, hvisible, hclass,
    (List.forall₂_iff_zip.1 hcalls).2 hzip⟩

/-! ## Programs -/

/-- The name of the function of number `i` of the main file. -/
def mainFuncName (i : Nat) : String := "fn" ++ toString i

namespace Program

/-- The declarations that make up a program. -/
structure Parts where
  classes : List RootNode
  /-- The functions of each library file. -/
  libs : List (List FuncDecl)
  /-- The functions of the main file. -/
  funcs : List FuncDecl
  /-- The function that calls those of the main file. -/
  entry : FuncDecl

namespace Parts

/-- The main file of a program. -/
def mainFile (q : Parts) : File :=
  ⟨mainFileName, (if (libraries q.classes q.libs).isEmpty then q.classes else []) ++
    (Support.fileName :: (libraries q.classes q.libs).map (·.name)).map .require ++
    (q.funcs.map .func ++ [.func q.entry, .stmt (.call "main" [])])⟩

/-- The program of some declarations: the classes are dealt out to the library files. -/
def program (q : Parts) : Program :=
  ⟨Support.files, libraries q.classes q.libs ++ [q.mainFile]⟩

/-- The declarations of a program are built over a symbol table: they are numbered, and the
table knows their classes, their library functions and methods, and the built-in functions. -/
structure Built (config : Config) (t : SymbolTable) (q : Parts) : Prop where
  classes : List.Forall₂ (RootNode.ClassBuilt config t) (List.range t.classes.length) q.classes
  libs : ∀ ds ∈ q.libs, ∀ d ∈ ds, d.Built config t true
  libTypes : ∀ i ds, q.libs[i]? = some ds → LibraryDrawn t.classNames i (ds.map (·.type))
  funcs : ∀ d ∈ q.funcs, d.Built config t false ∧ d.type.owner = none
  funcNames : ∃ n, q.funcs.map (·.type.name) = (List.range n).map mainFuncName
  entry : q.entry.EntryBuilt config t (q.funcs.map (·.type))
  classNames : t.classNames = (List.range t.classes.length).map className
  known : ∀ f ∈ t.funcs,
    f ∈ Catalog.builtins ∨ f ∈ q.libs.flatten.map (·.type) ∨ t.HasMethod f

/-- The declarations of a program are laid out as the configuration says: so many classes, so many
library files, and so many functions in each of them. The table has the built-in functions, those of
the library files and the methods of the classes, in this order. -/
def Laid (config : Config) (t : SymbolTable) (q : Parts) : Prop :=
  Build.Arranged config t (q.libs.map fun ds => ds.map (·.type))

/-- Every class of a built program is the built one of its place. -/
theorem Built.ofClass {config : Config} {t : SymbolTable} {q : Parts} (h : q.Built config t)
    {n : RootNode} (hn : n ∈ q.classes) : ∃ i, n.ClassBuilt config t i := by
  have hall : List.Forall₂ (fun _ n => ∃ i, n.ClassBuilt config t i)
      (List.range t.classes.length) q.classes := h.classes.imp fun i n hbuilt => ⟨i, hbuilt⟩
  exact forall₂_right hall n hn

end Parts

/-- A program is built from classes, library functions, functions of the main file and the
function that calls those. -/
def Built (config : Config) (t : SymbolTable) (p : Program) : Prop :=
  ∃ q : Parts, q.Built config t ∧ p = q.program

end Program

/-- A top-level node of a file with the given nodes is built in one of these ways. -/
inductive RootNode.Built (config : Config) (t : SymbolTable) (nodes : List RootNode) :
    RootNode → Prop where
  | require (path : String) : Built config t nodes (.require path)
  | start : Built config t nodes (.stmt (.call "main" []))
  | ofClass {n : RootNode} {i : Nat} : n.ClassBuilt config t i → Built config t nodes n
  | func {d : FuncDecl} {isGuarded : Bool} : d.Built config t isGuarded →
      Built config t nodes (.func d)
  | entry {entry : FuncDecl} {funcs : List FuncDecl} :
      (∀ d ∈ funcs, .func d ∈ nodes ∧ d.Built config t false ∧ d.type.owner = none) →
      entry.EntryBuilt config t (funcs.map (·.type)) → Built config t nodes (.func entry)

theorem mem_of_mem_share {α : Type} {n i : Nat} {xs : List α} {x : α} (h : x ∈ share n i xs) :
    x ∈ xs := by
  obtain ⟨⟨y, j⟩, hy, rfl⟩ := List.mem_map.1 h
  exact List.mem_of_getElem? (List.mem_zipIdx_iff_getElem?.1 (List.mem_filter.1 hy).1)

/-- What stands at the top level of a file with the given nodes: the declarations of a program, and
what the main file does with them. -/
inductive Program.Parts.Holds (q : Program.Parts) (nodes : List RootNode) : RootNode → Prop where
  | require {path : String} :
      path ∈ Support.fileName :: (libraries q.classes q.libs).map (·.name) →
      Holds q nodes (.require path)
  | start : Holds q nodes (.stmt (.call "main" []))
  | ofClass {n : RootNode} : n ∈ q.classes → Holds q nodes n
  | library {d : FuncDecl} : d ∈ q.libs.flatten → Holds q nodes (.func d)
  | func {d : FuncDecl} : d ∈ q.funcs → Holds q nodes (.func d)
  | entry : (∀ d ∈ q.funcs, .func d ∈ nodes) → Holds q nodes (.func q.entry)

/-- Every top-level node of a program is one of its declarations, or requires a file, or starts
the program. -/
theorem Program.Parts.holds (q : Program.Parts) :
    ∀ file ∈ q.program.files, ∀ n ∈ file.nodes, q.Holds file.nodes n := by
  -- Library files hold classes and library functions; the main file holds the classes only where
  -- there is no library file.
  intro file hfile n hn
  rcases List.mem_append.1 hfile with hfile | hfile
  · obtain ⟨⟨decls, i⟩, hdecls, rfl⟩ := List.mem_map.1 hfile
    have hdecls := List.mem_of_getElem? (List.mem_zipIdx_iff_getElem?.1 hdecls)
    rcases List.mem_append.1 hn with hn | hn
    · exact .ofClass (mem_of_mem_share hn)
    · obtain ⟨d, hd, rfl⟩ := List.mem_map.1 hn
      exact .library (List.mem_flatten_of_mem hdecls hd)
  · obtain rfl := List.mem_singleton.1 hfile
    rcases List.mem_append.1 hn with hn | hn
    · rcases List.mem_append.1 hn with hn | hn
      · split at hn
        · exact .ofClass hn
        · cases hn
      · obtain ⟨path, hpath, rfl⟩ := List.mem_map.1 hn
        exact .require hpath
    · rcases List.mem_append.1 hn with hn | hn
      · obtain ⟨d, hd, rfl⟩ := List.mem_map.1 hn
        exact .func hd
      · rcases List.mem_cons.1 hn with rfl | hn
        · refine .entry fun d hd => ?_
          apply List.mem_append_right
          exact List.mem_append_left _ (List.mem_map_of_mem hd)
        · obtain rfl := List.mem_singleton.1 hn
          exact .start

theorem Program.Parts.Built.ofLibrary {config : Config} {t : SymbolTable} {q : Program.Parts}
    (h : q.Built config t) {d : FuncDecl} (hd : d ∈ q.libs.flatten) : d.Built config t true := by
  obtain ⟨ds, hds, hd⟩ := List.mem_flatten.1 hd
  exact h.libs ds hds d hd

/-- Every top-level node of a built program is built. -/
theorem Program.Built.node {config : Config} {t : SymbolTable} {p : Program}
    (h : p.Built config t) : ∀ file ∈ p.files, ∀ n ∈ file.nodes, n.Built config t file.nodes := by
  obtain ⟨q, hq, rfl⟩ := h
  intro file hfile n hn
  cases q.holds file hfile n hn with
  | @require path _ => exact .require path
  | start => exact .start
  | ofClass hn =>
      obtain ⟨i, hbuilt⟩ := hq.ofClass hn
      exact .ofClass hbuilt
  | library hd => exact .func (hq.ofLibrary hd)
  | func hd => exact .func (hq.funcs _ hd).1
  | entry hnodes => exact .entry (fun d hd => ⟨hnodes d hd, hq.funcs d hd⟩) hq.entry

/-! ## Building -/

variable {ρ : Type} [WordSource ρ] {E : Fault → Prop} {config : Config} {t : SymbolTable}
  {g : Generator ρ}

namespace Build

/-- A call of a function of the main file is drawn. -/
theorem entryCall_draws {env : Env} (hs : env.Sound E) (budget : Nat) {f : FuncType} (hf : f.Sound) :
    Draws E env budget (entryCall f : Build ρ Node) (EntryCall env budget f) := by
  unfold entryCall
  have hmin : f.minArgs ≤ f.params.length := Param.requiredCount_le f.params
  refine (Draws.blind (Draw.range_gives (by omega))).bind fun n hn => ?_
  have hargs : Draws E env budget (Draw.each (fun p => value p.type) (f.params.take n) :
      Build ρ (List Node))
      (List.Forall₂ (fun p x => Derives env budget (.value p.type) x) (f.params.take n)) :=
    Draws.each fun p hp => proper_draws hs (hf.params p (List.mem_of_mem_take hp)).proper
  refine hargs.bind fun args hargs => ?_
  obtain ⟨hlen, hzip⟩ := forall₂_take hn.2 hargs
  have hpasses : Passes env budget f args := ⟨by omega, by omega, hzip⟩
  apply Draws.pure
  split
  · rename_i hdump
    exact .dump hdump hpasses
  · rename_i hdump
    exact .call (eq_false_of_ne_true hdump) hpasses

/-- Functions with drawn signatures are built one after another. -/
theorem funcDecls_runs (hcfg : config.Tolerated E) (hE : E .outOfAttempts) (ht : t.Ready)
    {fs : List FuncType} (hfs : ∀ f ∈ fs, f.Drawn t.classNames ∧ f.OwnedIn t) (isGuarded : Bool)
    (hg : Resting config t g) :
    Runs E (fs.mapM (funcDecl isGuarded)) g fun ds g' =>
      ((∀ d ∈ ds, d.Built config t isGuarded) ∧ ds.map (·.type) = fs) ∧ Resting config t g' := by
  refine (Runs.mapM_each (S := fun f d => d.Built config t isGuarded ∧ d.type = f)
    (I := Resting config t) hg fun f hf s hs => ?_).mono fun ds g' h => ?_
  · exact funcDecl_runs hcfg hE ht (hfs f hf).1 (hfs f hf).2 isGuarded hs
  · obtain ⟨hds, hg'⟩ := h
    refine ⟨⟨forall₂_right (hds.imp fun f d h => h.1), ?_⟩, hg'⟩
    exact map_eq_of_forall₂ (hds.imp fun f d h => h.2)

/-- A class is built. -/
theorem classDecl_runs (hcfg : config.Tolerated E) (hE : E .outOfAttempts) (ht : t.Ready)
    {i : Nat} (hi : t.Defines i) (hg : Resting config t g) :
    Runs E (classDecl (.numbered i)) g fun n g' =>
      n.ClassBuilt config t i ∧ Resting config t g' := by
  obtain ⟨type, hdrawn, hget⟩ := hi
  unfold classDecl
  refine Runs.bind (get_runs ?_)
  have hclass : g.symbols.classAt i = .ok { type with isDefined := true } := by
    rw [hg.symbols, SymbolTable.classAt, elemAt, hget]
  rw [show (ClassRef.numbered i).id = i from rfl, hclass]
  refine Runs.bind (Runs.ok rfl ?_)
  have hmethods : ∀ f ∈ type.methods, f.Drawn t.classNames ∧ f.OwnedIn t := by
    intro f hf
    obtain ⟨hf, howner⟩ := hdrawn.methods f hf
    refine ⟨hf, fun c hc => ?_⟩
    rw [howner] at hc
    obtain rfl := Option.some.inj hc
    have hname := SymbolTable.classNames_of_getElem? hget
    rw [← hdrawn.name]
    exact hname
  refine Runs.bind ((funcDecls_runs hcfg hE ht hmethods true hg).mono fun ds g' h => ?_)
  obtain ⟨⟨hds, htypes⟩, hg'⟩ := h
  exact Runs.pure ⟨.of hdrawn hget hds htypes, hg'⟩

/-- A function of the main file is built. -/
theorem mainFunc_runs (hcfg : config.Tolerated E) (hE : E .outOfAttempts) (ht : t.Ready) (i : Nat)
    (hg : Resting config t g) :
    Runs E (mainFunc i) g fun d g' =>
      ((d.Built config t false ∧ d.type.owner = none) ∧ d.type.name = mainFuncName i) ∧
        Resting config t g' := by
  unfold mainFunc
  have hcfg' : g.env.config.Tolerated E := by
    rw [show g.env.config = config from hg.config]
    exact hcfg
  refine Runs.bind (draw_runs (Draw.function_gives hcfg' hE _) fun f source hf => ?_)
  have hg' : Resting config t { g with source } := ⟨hg.config, hg.symbols, hg.scope⟩
  have hdrawn : f.Drawn t.classNames := by
    rw [← hg.symbols]
    exact hf.1.1
  have howner : f.OwnedIn t := .of_none hf.1.2
  refine (funcDecl_runs hcfg hE ht hdrawn howner false hg').mono fun d g' h => ?_
  obtain ⟨⟨hd, rfl⟩, hg''⟩ := h
  exact ⟨⟨⟨hd, hf.1.2⟩, hf.2⟩, hg''⟩

/-- The function that calls the others is built. -/
theorem entry_runs (hcfg : config.Tolerated E) (ht : t.Ready) {funcs : List FuncType}
    (hfuncs : ∀ f ∈ funcs, f.Sound) (hg : Resting config t g) :
    Runs E (entry funcs) g fun d g' => d.EntryBuilt config t funcs ∧ g'.symbols = t := by
  unfold entry
  have hbegin : beginFunction none .void g = .ok ((), { g with
      stmtDepth := 0
      jumps := []
      nextVar := 0
      nextCounter := 0
      currentClass := none
      currentResult := .void }) := by
    rw [beginFunction, hg.scope]
    rfl
  refine Runs.bind (Runs.ok hbegin ?_)
  refine Runs.bind (inFrame_runs ?_)
  let begun : Generator ρ := { g with
    scope := g.scope.enter
    stmtDepth := 0
    jumps := []
    nextVar := 0
    nextCounter := 0
    currentClass := none
    currentResult := .void }
  -- The frame is entered but nothing is pushed: the calls are drawn with nothing in scope.
  have hs : begun.env.Sound E := by
    have hconfig : begun.env.config = config := hg.config
    have hsymbols : begun.env.symbols = t := hg.symbols
    refine ⟨?_, ?_, ?_, ?_⟩
    · rw [hconfig]
      exact hcfg.chances
    · rw [hsymbols]
      exact ht.consistent
    · rw [hsymbols]
      exact ht.frozen
    · rw [hsymbols]
      exact fun f hf p hp => ((ht.sound f hf).params p hp).proper
  have hcalls : Draws E begun.env begun.budget (Draw.each entryCall funcs : Build ρ (List Node))
      (List.Forall₂ (EntryCall begun.env begun.budget) funcs) :=
    Draws.each fun f hf => entryCall_draws hs begun.budget (hfuncs f hf)
  refine hcalls.from_state (g := begun) fun calls source hcalls => ?_
  have hvisible : begun.env.scope.visible = [] := by
    rw [show begun.env.scope = g.scope.enter from rfl, hg.scope]
    rfl
  refine ⟨.empty, ?_, Runs.pure ⟨⟨rfl, rfl, begun.env, begun.budget, hg.config, hg.symbols,
    hvisible, rfl, hcalls⟩, hg.symbols⟩⟩
  rw [show begun.scope = g.scope.enter from rfl, hg.scope]
  rfl

/-- The functions of the main file are built, and the one that calls them. -/
theorem mainNodes_runs (hcfg : config.Tolerated E) (hE : E .outOfAttempts) (ht : t.Ready)
    (hg : Resting config t g) :
    Runs E mainNodes g fun ns g' => g'.symbols = t ∧
      ∃ (funcs : List FuncDecl) (entry : FuncDecl),
      ns = funcs.map .func ++ [.func entry, .stmt (.call "main" [])] ∧
      (∀ d ∈ funcs, d.Built config t false ∧ d.type.owner = none) ∧
      (∃ n, funcs.map (·.type.name) = (List.range n).map mainFuncName) ∧
      entry.EntryBuilt config t (funcs.map (·.type)) := by
  unfold mainNodes
  have hcfg' : g.env.config.Tolerated E := by
    rw [show g.env.config = config from hg.config]
    exact hcfg
  refine Runs.bind (draw_runs (hcfg'.range_gives "main_funcs" (by simp [Config.ranges]))
    fun count source _ => ?_)
  have hg' : Resting config t { g with source } := ⟨hg.config, hg.symbols, hg.scope⟩
  have hfuncs : Runs E ((List.range count).mapM mainFunc) { g with source } fun ds g' =>
      List.Forall₂ (fun i d => (d.Built config t false ∧ d.type.owner = none) ∧
        d.type.name = mainFuncName i) (List.range count) ds ∧ Resting config t g' :=
    Runs.mapM_each hg' fun i _ s hs => mainFunc_runs hcfg hE ht i hs
  refine Runs.bind (hfuncs.mono fun ds g₁ h => ?_)
  have hds := forall₂_right (h.1.imp fun i d h => h.1)
  have hnames : ds.map (·.type.name) = (List.range count).map mainFuncName := by
    apply map_eq_of_forall₂
    rw [List.forall₂_map_left_iff]
    exact h.1.imp fun i d h => h.2
  have hsound : ∀ f ∈ ds.map (·.type), f.Sound := by
    intro f hf
    obtain ⟨d, hd, rfl⟩ := List.mem_map.1 hf
    exact (hds d hd).1.drawn.toSound
  refine Runs.bind ((entry_runs hcfg ht hsound h.2).mono fun entry g₂ hentry => ?_)
  exact Runs.pure ⟨hentry.2, ds, entry, rfl, hds, ⟨count, hnames⟩, hentry.1⟩

omit [WordSource ρ] in
/-- The settled table is frozen; its classes and functions stay as they are. -/
theorem freeze_of_settled {known : Signatures} (hg : Settling config g)
    (h : Settled g.symbols known) :
    ∃ t, g.symbols.freeze = .ok t ∧ t.Ready ∧ Settled t known ∧
      t.classes = g.symbols.classes ∧ t.funcs = g.symbols.funcs := by
  have hfreeze : g.symbols.freeze = .ok { g.symbols with
      isFrozen := true
      fieldIndex := g.symbols.fieldIndex.freeze
      funcIndex := g.symbols.funcIndex.freeze } := by
    simp [SymbolTable.freeze, hg.isOpen]
  have hsettled : Settled { g.symbols with
      isFrozen := true
      fieldIndex := g.symbols.fieldIndex.freeze
      funcIndex := g.symbols.funcIndex.freeze } known :=
    ⟨h.classes, h.names, h.defines, h.libFuncs, h.funcs⟩
  have hconsistent := (hg.reachable.freeze hfreeze).consistent
  exact ⟨_, hfreeze, ⟨hconsistent, rfl, hsettled.sound, hsettled.closed⟩, hsettled, rfl, rfl⟩

/-- A whole program is built and laid out, with the table that is left at the end. -/
theorem program_parts_runs (source : ρ) (hcfg : config.Tolerated E) (hE : E .outOfAttempts)
    (attempts : Nat) :
    Runs E program (Generator.start source config attempts) fun p g' =>
      (∃ q : Program.Parts, q.Built config g'.symbols ∧ q.Laid config g'.symbols ∧ p = q.program) ∧
        g'.symbols.Ready := by
  unfold program registerBuiltins
  have hstart : Settling config (Generator.start source config attempts) :=
    ⟨rfl, rfl, rfl, .empty⟩
  refine Runs.bind ((register_runs hstart nodup_builtins).mono fun _ g₁ h => ?_)
  obtain ⟨hg₁, hfuncs₁, hclasses₁⟩ := h
  refine Runs.bind ((signatures_runs hcfg hE hg₁ hclasses₁ hfuncs₁).mono fun known g₂ h => ?_)
  obtain ⟨hg₂, hsettled, harranged⟩ := h
  -- From here on the table stays as it is.
  obtain ⟨t, hfreeze, ht, hsettled, hclasses, hfuncs⟩ := freeze_of_settled hg₂ hsettled
  have harranged : Arranged config t known.libFuncs := by
    refine ⟨?_, harranged.libFiles, harranged.libFuncs, ?_⟩
    · rw [hclasses]
      exact harranged.classes
    · rw [hclasses, hfuncs]
      exact harranged.funcs
  refine Runs.bind (modifySymbols_runs (a := ()) (t := t) (by rw [hfreeze]; rfl) ?_)
  have hg₃ : Resting config t { g₂ with symbols := t } := ⟨hg₂.config, rfl, hg₂.scope⟩
  have hclasses : Runs E (known.classes.mapM classDecl) { g₂ with symbols := t } fun ns g' =>
      List.Forall₂ (fun c n => n.ClassBuilt config t c.id) known.classes ns ∧
        Resting config t g' := by
    refine Runs.mapM_each hg₃ fun c hc s hs => ?_
    rw [hsettled.classes] at hc
    obtain ⟨i, hi, rfl⟩ := List.mem_map.1 hc
    exact classDecl_runs hcfg hE ht (hsettled.defines i (List.mem_range.1 hi)) hs
  refine Runs.bind (hclasses.mono fun classes g₄ hclasses => ?_)
  have hlibs : Runs E (known.libFuncs.mapM fun fs => fs.mapM (funcDecl true)) g₄ fun libs g' =>
      List.Forall₂ (fun fs ds => (∀ d ∈ ds, d.Built config t true) ∧ ds.map (·.type) = fs)
        known.libFuncs libs ∧ Resting config t g' := by
    refine Runs.mapM_each hclasses.2 fun fs hfs s hs => ?_
    have hdrawn : ∀ f ∈ fs, f.Drawn t.classNames ∧ f.OwnedIn t := by
      intro f hf
      obtain ⟨hf, howner⟩ := hsettled.library (List.mem_flatten_of_mem hfs hf)
      exact ⟨hf, .of_none howner⟩
    exact funcDecls_runs hcfg hE ht hdrawn true hs
  refine Runs.bind (hlibs.mono fun libs g₅ hlibs => ?_)
  refine Runs.bind ((mainNodes_runs hcfg hE ht hlibs.2).mono fun ns g₆ h => ?_)
  obtain ⟨hsymbols, funcs, entry, rfl, hfuncs, hnames, hentry⟩ := h
  have htypes : libs.map (fun ds => ds.map (·.type)) = known.libFuncs :=
    map_eq_of_forall₂ (hlibs.1.imp fun fs ds h => h.2)
  apply Runs.pure
  rw [hsymbols]
  refine ⟨⟨⟨classes, libs, funcs, entry⟩, ⟨?_, ?_, ?_, hfuncs, hnames, hentry, hsettled.names, ?_⟩,
    ?_, rfl⟩, ht⟩
  · have hnumbered := hclasses.1
    rw [hsettled.classes, List.forall₂_map_left_iff] at hnumbered
    exact hnumbered
  · exact forall₂_right (hlibs.1.imp fun fs ds h => h.1)
  · intro i ds hi
    apply hsettled.libFuncs
    rw [← htypes, List.getElem?_map, hi]
    rfl
  · intro f hf
    rw [List.map_flatten, htypes]
    exact hsettled.funcs f hf
  · rw [Program.Parts.Laid, htypes]
    exact harranged

/-- A whole program is built, with the table that is left at the end. -/
theorem program_runs (source : ρ) (hcfg : config.Tolerated E) (hE : E .outOfAttempts)
    (attempts : Nat) :
    Runs E program (Generator.start source config attempts) fun p g' =>
      p.Built config g'.symbols ∧ g'.symbols.Ready := by
  refine (program_parts_runs source hcfg hE attempts).mono fun p g' h => ?_
  obtain ⟨⟨q, hbuilt, -, hprogram⟩, ht⟩ := h
  exact ⟨⟨q, hbuilt, hprogram⟩, ht⟩

end Build

/-- A configuration of small programs, with one class, one library file and one function in each
file. -/
def Config.small : Config :=
  { Config.standard with
    libFiles := 1
    libFuncs := ⟨1, 1⟩
    classes := 1
    fields := ⟨1, 1⟩
    methods := ⟨1, 1⟩
    params := ⟨1, 1⟩
    mainFuncs := ⟨1, 1⟩
    varDecls := ⟨1, 1⟩
    stmts := ⟨1, 1⟩
    maxStmtDepth := 1
    maxExprDepth := 0 }

/-- A program that is generated and passes a check. -/
theorem Build.program_of_check (source : Scripted.Stream) (config : Config) (attempts : Nat)
    (check : Program → Bool)
    (h : (Build.program (Generator.start source config attempts)).toOption.any
      (fun r => check r.1) = true) :
    ∃ p g', Build.program (Generator.start source config attempts) = .ok (p, g') ∧
      check p = true :=
  Runs.exists_of_check h

/-- Whether a function of a program has a node with an operator. -/
def Program.hasOp (p : Program) (op : Op) : Bool :=
  p.files.any fun file => file.bodies.any fun d =>
    (Node.subtermsList d.body).any fun m => m.op == op

/-- A small program that changes variables, reads fields, calls functions and methods, and returns
values. -/
theorem Build.program_small : ∃ p g',
    Build.program (Generator.start (⟨[], 189⟩ : Scripted.Stream) .small 10) = .ok (p, g') ∧
      ∀ op ∈ [Op.assign, .assignModify, .prop, .call, .methodCall, .returnValue],
        p.hasOp op = true := by
  obtain ⟨p, g', hrun, hops⟩ := Build.program_of_check ⟨[], 189⟩ .small 10
    (fun p => [Op.assign, .assignModify, .prop, .call, .methodCall, .returnValue].all p.hasOp)
    (by decide +kernel)
  exact ⟨p, g', hrun, List.all_eq_true.1 hops⟩

end TypedPhp
