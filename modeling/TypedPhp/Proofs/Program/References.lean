import TypedPhp.Proofs.Program.Declarations
import TypedPhp.Proofs.Stmt.Linked

set_option autoImplicit false

/-!
# Closed programs

Whatever a node of a generated body refers to is declared by the program itself, built in, or a
runtime helper: new objects are of a class that the program declares once, a member is used on an
object of a class that has it, a private field inside its class only and on the current object, and
a call passes as many arguments as its callee takes (`Node.Resolved`). The judgment looks at the
files of the finished program and not at the symbol table. `Program.references_resolved` says so of
every function, method and constructor of a generated program.
-/

namespace TypedPhp

/-! ## Resolved nodes -/

/-- The runtime helpers, with the numbers of their arguments. -/
def runtimeHelpers : List (String × Nat) := ("fuzz_visited", 1) :: bodyHelpers

/-- A function can be called with a number of arguments. -/
structure FuncType.Takes (f : FuncType) (n : Nat) : Prop where
  enough : f.minArgs ≤ n
  notMore : n ≤ f.params.length

/-- An object of a class before one of its members: the current one inside the class, a variable
that carries the class as its type, or a new object in parentheses. -/
inductive ObjectOf (inside : Option String) : (className : String) → Node → Prop where
  | this (c : ClassRef) : inside = some c.name →
      ObjectOf inside c.name (.var "this" (.object c))
  | variable {name : String} (c : ClassRef) : name ≠ "this" →
      ObjectOf inside c.name (.var name (.object c))
  | fresh (className : String) (t : Ty) :
      ObjectOf inside className (Node.parens ((Node.newObject className).withType t))

namespace Program

/-- What a call by name may call, and with how many arguments: a runtime helper, a built-in
function, or a function that the program declares once, in a library file or in the main file. -/
inductive Calls (p : Program) : String → Nat → Prop where
  | helper {name : String} {n : Nat} : (name, n) ∈ runtimeHelpers → Calls p name n
  | builtin {f : FuncType} {n : Nat} : f ∈ Catalog.builtins → f.Takes n → Calls p f.name n
  | library {file : File} {d : FuncDecl} {n : Nat} : file ∈ p.files → file.name ≠ mainFileName →
      d ∈ file.functions → p.DeclaresFunction d → d.type.Takes n → Calls p d.type.name n
  | main {file : File} {d : FuncDecl} {i n : Nat} : file ∈ p.files → file.name = mainFileName →
      d ∈ file.functions → d.type.name = mainFuncName i → p.DeclaresFunction d → d.type.Takes n →
      Calls p d.type.name n

end Program

/-- A node refers to what the program declares, in the body of a function that stands inside a
class, or in none. Only constructors leave out the type of a field. -/
inductive Node.Resolved (p : Program) (inside : Option String) (d : FuncDecl) : Node → Prop where
  | plain {n : Node} : n.op.refers = false → Resolved p inside d n
  | new {className : String} {type : ClassType} {methods : List FuncDecl} (t : Option Ty) :
      p.DeclaresClass className type methods →
      Resolved p inside d (.mk .new [] (some (.ident className)) t)
  | prop {className field : String} {type : ClassType} {methods : List FuncDecl} {f : Field}
      {object : Node} {t : Option Ty} : ObjectOf inside className object →
      p.DeclaresClass className type methods → type.fields.filter (·.name == field) = [f] →
      (∀ u, t = some u → f.type.identical u = true) →
      (t = none → d.type.name = "__construct") →
      (f.visibility = .privateMember →
        inside = some className ∧ ∃ c, object = .var "this" (.object c)) →
      Resolved p inside d (.mk .prop [object] (some (.ident field)) t)
  | methodCall {className method : String} {type : ClassType} {methods : List FuncDecl}
      {m : FuncDecl} {object : Node} {args : List Node} (t : Option Ty) :
      ObjectOf inside className object → p.DeclaresClass className type methods →
      methods.filter (·.type.name == method) = [m] → m.type.Takes args.length →
      Resolved p inside d (.mk .methodCall (object :: args) (some (.ident method)) t)
  | call {callee : String} {args : List Node} (t : Option Ty) : p.Calls callee args.length →
      Resolved p inside d (.mk .call (.name callee :: args) none t)

/-! ## Members of built classes -/

namespace Program.Parts

variable {config : Config} {t : SymbolTable} {q : Parts}

/-- The fields of a class that is built have different names. -/
theorem field_filter {known : List String} {earlier : List ClassRef} {c : ClassRef}
    {type : ClassType} (h : type.Drawn known earlier c) {f : Field} (hf : f ∈ type.fields) :
    type.fields.filter (·.name == f.name) = [f] := by
  obtain ⟨n, hn⟩ := h.fieldNames
  exact filter_name_eq (nodup_of_map_eq hn fun i j hij => numbered_inj hij) hf

/-- The methods of a class that is built have different names, with its constructor among them. -/
theorem method_filter {known : List String} {earlier : List ClassRef} {c : ClassRef}
    {type : ClassType} {methods : List FuncDecl} (h : type.Drawn known earlier c)
    (hmethods : methods.map (·.type) = type.methods) {f : FuncType} (hf : f ∈ type.methods) :
    ∃ m, (type.constructors c ++ methods).filter (·.type.name == f.name) = [m] ∧ m.type = f := by
  rw [← hmethods] at hf
  obtain ⟨m, hm, rfl⟩ := List.mem_map.1 hf
  obtain ⟨n, hn⟩ := h.names
  rw [← hmethods, List.map_map] at hn
  have hnodup : ((type.constructors c ++ methods).map (·.type.name)).Nodup := by
    rw [List.map_append, List.nodup_append]
    refine ⟨?_, nodup_of_map_eq hn fun i j hij => numbered_inj hij, ?_⟩
    · unfold ClassType.constructors
      split <;> simp
    -- The constructor begins with an underscore, and a method with `m`.
    · rintro x hx y hy rfl
      obtain ⟨d, hd, rfl⟩ := List.mem_map.1 hx
      rw [(ClassType.constructors_create hd).1] at hy
      obtain ⟨m', hm', heq⟩ := List.mem_map.1 hy
      obtain ⟨i, hi⟩ := exists_name_of_map_eq hn m' hm'
      refine ne_of_head ?_ (hi.symm.trans heq)
      simp [methodName, FuncType.method, String.toList_append]
  exact ⟨m, filter_name_eq hnodup (List.mem_append_right _ hm), rfl⟩

/-- A class of the table is declared with all its members: each of its fields, and a method for
each of its signatures, is the only one of its name. -/
theorem Built.declaresMembers (h : q.Built config t) {i : Nat} {type : ClassType}
    (hget : t.classes[i]? = some type) :
    ∃ methods, q.program.DeclaresClass type.name type methods ∧
      (∀ f ∈ type.fields, type.fields.filter (·.name == f.name) = [f]) ∧
      ∀ f ∈ type.methods, ∃ m, methods.filter (·.type.name == f.name) = [m] ∧ m.type = f := by
  have hname := SymbolTable.classNames_of_getElem? hget
  obtain ⟨n, type', methods, hbuilt, hclass, hdeclares⟩ :=
    h.declaresClass (c := ⟨i, type.name⟩) hname
  -- The class that is built at this number is the one that the table holds there.
  obtain ⟨hdrawn, hget', -, htypes⟩ := hbuilt
  rw [hget] at hget'
  obtain rfl := Option.some.inj hget'
  obtain ⟨rfl, rfl⟩ := Prod.mk.inj (Option.some.inj hclass)
  exact ⟨_, hdeclares, fun f hf => field_filter hdrawn hf,
    fun f hf => method_filter hdrawn htypes hf⟩

/-- A method of the table is declared in its class. -/
theorem Built.declaresMethod (h : q.Built config t) (hclosed : t.Closed) {f : FuncType}
    {c : ClassRef} (hf : f ∈ t.funcs) (howner : f.owner = some c) :
    ∃ type methods m, q.program.DeclaresClass c.name type methods ∧
      methods.filter (·.type.name == f.name) = [m] ∧ m.type = f := by
  -- Neither a built-in function nor one of a library file has an owner.
  rcases h.known f hf with hbuiltin | hlib | ⟨i, type, howner', hget, hmem⟩
  · rw [Catalog.builtins_owner f hbuiltin] at howner
    cases howner
  · obtain ⟨d, hd, rfl⟩ := List.mem_map.1 hlib
    rw [h.libOwner hd] at howner
    cases howner
  · rw [howner] at howner'
    obtain rfl := Option.some.inj howner'
    obtain ⟨methods, hdeclares, -, hmethods⟩ := h.declaresMembers hget
    obtain ⟨m, hfilter, htype⟩ := hmethods f hmem
    have hname := hclosed.owned f hf _ howner
    rw [show (ClassRef.numbered i).id = i from rfl,
      SymbolTable.classNames_of_getElem? hget] at hname
    rw [Option.some.inj hname] at hdeclares
    exact ⟨type, methods, m, hdeclares, hfilter, htype⟩

/-- A free function of the table can be called. -/
theorem Built.calls (h : q.Built config t) {f : FuncType} {n : Nat} (hf : f ∈ t.funcs)
    (howner : f.owner = none) (htakes : f.Takes n) : q.program.Calls f.name n := by
  rcases h.known f hf with hf | hf | hf
  · exact .builtin hf htakes
  · obtain ⟨d, hd, rfl⟩ := List.mem_map.1 hf
    obtain ⟨ds, hds, hmem⟩ := List.mem_flatten.1 hd
    obtain ⟨i, hi⟩ := List.mem_iff_getElem?.1 hds
    have hfile : (⟨libFileName i, share q.libs.length i q.classes ++ ds.map .func⟩ : File) ∈
        libraries q.classes q.libs := by
      refine List.mem_map.2 ⟨(ds, i), ?_, rfl⟩
      exact List.mem_zipIdx_iff_getElem?.2 hi
    have hfunctions : d ∈ q.program.functions := by
      rw [h.functions_eq]
      exact List.mem_append_left _ hd
    refine .library (List.mem_append_left _ hfile) (libFileName_ne_main i) ?_
      (h.declaresFunction hfunctions) htakes
    refine List.mem_filterMap.2 ⟨.func d, ?_, rfl⟩
    exact List.mem_append_right _ (List.mem_map_of_mem hmem)
  · obtain ⟨i, -, howner', -, -⟩ := hf
    rw [howner] at howner'
    cases howner'

end Program.Parts

/-! ## Nodes of built programs -/

section Nodes

variable {config : Config} {t : SymbolTable} {q : Program.Parts} {env : Env}
  {inside : Option String} {d : FuncDecl} {n : Node}

/-- What receives a member is an object of the class. -/
theorem Receives.objectOf {c : ClassRef} (hthis : ∀ v ∈ env.scope.visible, v.name ≠ "this")
    (hinside : ∀ c, env.currentClass = some c → inside = some c.name) (h : Receives env c n) :
    ObjectOf inside c.name n := by
  cases h with
  | this hc => exact .this c (hinside c (eq_of_beq hc))
  | «variable» _ hread =>
      obtain ⟨⟨name, type⟩, hv, hidentical, rfl⟩ := hread
      have hname := hthis _ hv
      -- A type that is identical to that of a class is the type of a class of the same name.
      cases type with
      | object c' =>
          have hclass : c'.name = c.name := by simpa [Ty.identical] using hidentical
          rw [← hclass]
          exact .variable c' hname
      | _ => simp [Ty.identical] at hidentical
  | fresh _ => exact .fresh c.name (.object c)

/-- A linked node refers to what a built program declares. -/
theorem Node.Linked.resolved (h : q.Built config t) (hclosed : t.Closed) (henv : env.symbols = t)
    (hthis : ∀ v ∈ env.scope.visible, v.name ≠ "this")
    (hinside : ∀ c, env.currentClass = some c → inside = some c.name)
    {helpers : List (String × Nat)} (hhelpers : ∀ e ∈ helpers, e ∈ runtimeHelpers)
    (hn : n.Linked env helpers) : n.Resolved q.program inside d := by
  subst henv
  cases hn with
  | plain hop => exact .plain hop
  | new type hc =>
      obtain ⟨-, type', methods, -, -, hdeclares⟩ := h.declaresClass hc
      exact .new type hdeclares
  | @prop u c f object hf hobject =>
      obtain ⟨type, hget, hname, hmem⟩ := hf.known
      obtain ⟨methods, hdeclares, hfields, -⟩ := h.declaresMembers hget
      rw [hname] at hdeclares
      refine .prop (hobject.objectOf hthis hinside) hdeclares (hfields f hmem) ?_ nofun ?_
      · intro u' hu
        obtain rfl := Option.some.inj hu
        exact hf.type
      -- A private field is used on the current object: elsewhere its class is not the current one.
      · intro hprivate
        have hcurrent : env.isCurrent c = true := by
          rcases hf.usable with hpublic | hcurrent
          · rw [hprivate] at hpublic
            cases hpublic
          · exact hcurrent
        refine ⟨hinside c (eq_of_beq hcurrent), ?_⟩
        cases hobject with
        | this _ => exact ⟨c, rfl⟩
        | «variable» hother _ | fresh hother =>
            rw [hother] at hcurrent
            cases hcurrent
  | helper hmem => exact .call none (.helper (hhelpers _ hmem))
  | call hf howner hmin hmax => exact .call _ (h.calls hf howner ⟨hmin, hmax⟩)
  | methodCall hf howner hobject hmin hmax =>
      obtain ⟨type, methods, m, hdeclares, hfilter, rfl⟩ := h.declaresMethod hclosed hf howner
      exact .methodCall _ (hobject.objectOf hthis hinside) hdeclares hfilter ⟨hmin, hmax⟩

/-- The statement of a guard refers to the helper of guards only. -/
theorem resolved_of_guards {f : FuncType} {isGuarded : Bool} {guards : List Node} {p : Program}
    (h : Guards f isGuarded guards) : ∀ s ∈ guards, s.Every (Node.Resolved p inside d) := by
  have hcondition :
      (Node.call "fuzz_visited" [.textLit f.qualifiedName]).Every (Node.Resolved p inside d) := by
    have hcalls : p.Calls "fuzz_visited" 1 := .helper (by decide)
    refine .node (.call none hcalls) fun x hx => ?_
    rcases List.mem_cons.1 hx with rfl | hx
    · exact Node.Every.leaf (.plain rfl)
    · obtain rfl := List.mem_singleton.1 hx
      exact Node.Every.leaf (.plain rfl)
  have hguard : ∀ early : Node, early.Every (Node.Resolved p inside d) →
      (Node.ifThen (.call "fuzz_visited" [.textLit f.qualifiedName]) (.block [early])).Every
        (Node.Resolved p inside d) :=
    fun early hearly => .two (.plain rfl) hcondition (.one (.plain rfl) hearly)
  cases h with
  | none => exact nofun
  | void _ => exact List.forall_mem_singleton.2 (hguard _ (.leaf (.plain rfl)))
  | value _ hx =>
      have hearly : Node.Every (Node.Resolved p inside d) _ :=
        hx.constant.plain.mono fun m (hm : m.Plain) => .plain hm.1
      exact List.forall_mem_singleton.2 (hguard _ (.one (.plain rfl) hearly))

/-! ## Bodies of built programs -/

/-- The nodes of a built function after its guard are linked. -/
theorem FuncDecl.Built.linked (ht : t.Ready) {isGuarded : Bool} (hd : d.Built config t isGuarded) :
    ∃ guards stmts g, d.body = guards ++ stmts ∧ Guards d.type isGuarded guards ∧
      Begun config t d.type g ∧ ∀ s ∈ stmts, s.Every g.Links := by
  obtain ⟨guards, stmts, g, heq, hguards, hbegun, hstmts⟩ := hd.parts
  have hin := hbegun.during (.refl g)
  exact ⟨guards, stmts, g, heq, hguards, hbegun,
    hstmts.linked (hin.closed ht) (hin.result_within hd.drawn)⟩

/-- What the body of a built function refers to is declared. -/
theorem FuncDecl.Built.resolved (h : q.Built config t) (ht : t.Ready) {isGuarded : Bool}
    (hd : d.Built config t isGuarded)
    (hinside : ∀ c, d.type.owner = some c → inside = some c.name) :
    ∀ s ∈ d.body, s.Every (Node.Resolved q.program inside d) := by
  obtain ⟨guards, stmts, g, heq, hguards, hbegun, hstmts⟩ := hd.linked ht
  intro s hs
  rw [heq] at hs
  rcases List.mem_append.1 hs with hs | hs
  · exact resolved_of_guards hguards s hs
  · refine (hstmts s hs).mono fun m hm => ?_
    obtain ⟨g', hsame, hthis, hlinked⟩ := hm
    have hvisible : ∀ v ∈ g'.env.scope.visible, v.name ≠ "this" :=
      fun v hv => hthis v (Scope.mem_vars_of_mem_visible hv)
    refine hlinked.resolved h ht.closed (hsame.symbols.trans hbegun.symbols) hvisible ?_ ?_
    · intro c hc
      apply hinside
      rw [← hbegun.currentClass, ← hsame.currentClass]
      exact hc
    · exact fun e he => List.mem_cons_of_mem _ he

/-- What a constructor of a built class refers to is declared. -/
theorem Node.Creates.resolved (h : q.Built config t) {i : Nat} {type : ClassType}
    (hdrawn : type.Drawn t.classNames ((List.range i).map .numbered) (.numbered i))
    (hget : t.classes[i]? = some { type with isDefined := true })
    (hinside : inside = some type.name) (hd : d.type.name = "__construct")
    (hn : n.Creates type (.numbered i)) : n.Every (Node.Resolved q.program inside d) := by
  obtain ⟨methods, hdeclares, hfields, -⟩ := h.declaresMembers hget
  obtain @⟨f, target, hf, htype, hinit⟩ := hn
  -- The class of the object that is created is an earlier one, so it stands in the table.
  have htarget : t.classNames[target.id]? = some target.name := by
    obtain ⟨j, hj, rfl⟩ := List.mem_map.1 ((hdrawn.fields f hf).mem_earlier htype hinit)
    obtain ⟨hi, -⟩ := List.getElem?_eq_some_iff.1 hget
    have hlt : j < t.classes.length := Nat.lt_trans (List.mem_range.1 hj) hi
    rw [h.classNames, List.getElem?_map, show (ClassRef.numbered j).id = j from rfl,
      List.getElem?_range hlt]
    rfl
  obtain ⟨_, _, _, -, -, hnew⟩ := h.declaresClass htarget
  have hobject : ObjectOf inside type.name (.var "this" (.object (.numbered i))) := by
    rw [hdrawn.name] at hinside ⊢
    exact .this _ hinside
  refine .two (.plain rfl) (.one ?_ (.leaf (.plain rfl))) (.leaf (.new _ hnew))
  exact .prop hobject hdeclares (hfields f hf) nofun (fun _ => hd) fun _ => ⟨hinside, _, rfl⟩

/-- A call of a function of the main file refers to what is declared. -/
theorem EntryCall.resolved (h : q.Built config t) (ht : t.Ready) (henv : env.symbols = t)
    (hvisible : env.scope.visible = []) (hclass : env.currentClass = none) {b : Nat} {m : FuncDecl}
    (hm : m ∈ q.funcs) (hn : EntryCall env b m.type n) :
    n.Every (Node.Resolved q.program inside d) := by
  have hclosed : env.symbols.Closed := by
    rw [henv]
    exact ht.closed
  have hcalls : ∀ k, m.type.Takes k → q.program.Calls m.type.name k := by
    intro k htakes
    obtain ⟨i, hname⟩ := h.funcName hm
    have hfile : q.mainFile ∈ q.program.files :=
      List.mem_append_right _ (List.mem_singleton.2 rfl)
    have hfunctions : m ∈ q.program.functions := by
      rw [h.functions_eq]
      exact List.mem_append_right _ (List.mem_append_left _ hm)
    refine .main hfile rfl ?_ hname (h.declaresFunction hfunctions) htakes
    refine List.mem_filterMap.2 ⟨.func m, ?_, rfl⟩
    exact List.mem_append_right _ (List.mem_append_left _ (List.mem_map_of_mem hm))
  have hcall : ∀ args, Passes env b m.type args →
      ((Node.call m.type.name args).withType m.type.result).Every
        (Node.Resolved q.program inside d) := by
    intro args hargs
    refine .node (.call _ (hcalls _ ⟨hargs.enough, hargs.notMore⟩)) fun x hx => ?_
    rcases List.mem_cons.1 hx with rfl | hx
    · exact Node.Every.leaf (.plain rfl)
    · obtain ⟨p, hzip⟩ := exists_mem_zip hargs.notMore hx
      have hwithin : p.type.Within env.symbols.classNames := by
        rw [henv]
        exact (h.funcs m hm).1.drawn.within p (List.of_mem_zip hzip).1
      refine ((hargs.values p x hzip).linked hclosed hwithin).mono fun y hy => ?_
      -- The arguments are drawn outside of any body: nothing is in scope, and there is no class.
      refine hy.resolved h ht.closed henv ?_ ?_ (by decide)
      · rw [hvisible]
        exact nofun
      · rw [hclass]
        exact nofun
  cases hn with
  | dump _ hargs =>
      have hdump : q.program.Calls "fuzz_dump" 2 := .helper (by decide)
      exact .node (.call none hdump) (List.forall_mem_cons.2
        ⟨.leaf (.plain rfl), forall_mem_pair (.leaf (.plain rfl)) (hcall _ hargs)⟩)
  | call _ hargs => exact hcall _ hargs

/-- What the function that calls the others refers to is declared. -/
theorem FuncDecl.EntryBuilt.resolved (h : q.Built config t) (ht : t.Ready) :
    ∀ s ∈ q.entry.body, s.Every (Node.Resolved q.program inside d) := by
  intro s hs
  obtain ⟨m, hm, env, b, hsymbols, hvisible, hclass, hcall⟩ := h.entry.entryCall hs
  exact hcall.resolved h ht hsymbols hvisible hclass hm

/-- What the functions of a built program refer to is declared. -/
theorem Program.Parts.Built.resolved (h : q.Built config t) (ht : t.Ready) {nodes : List RootNode}
    {r : RootNode} (hr : q.Holds nodes r) :
    ∀ d ∈ r.bodies, ∀ s ∈ d.body, s.Every (Node.Resolved q.program r.className? d) := by
  intro d hd
  -- Functions of files have no class that `$this` could be of; methods have the one they stand in.
  cases hr with
  | require _ => cases hd
  | start => cases hd
  | library hlib =>
      obtain rfl := List.mem_singleton.1 hd
      refine (h.ofLibrary hlib).resolved h ht fun c hc => ?_
      rw [h.libOwner hlib] at hc
      cases hc
  | func hmain =>
      obtain rfl := List.mem_singleton.1 hd
      obtain ⟨hbuilt, howner⟩ := h.funcs _ hmain
      refine hbuilt.resolved h ht fun c hc => ?_
      rw [howner] at hc
      cases hc
  | entry _ =>
      obtain rfl := List.mem_singleton.1 hd
      exact FuncDecl.EntryBuilt.resolved h ht
  | ofClass hclass =>
      obtain ⟨i, hbuilt⟩ := h.ofClass hclass
      obtain ⟨hdrawn, hget, hmethods, htypes⟩ := hbuilt
      rcases List.mem_append.1 hd with hd | hd
      · obtain ⟨htype, hcreates⟩ := ClassType.constructors_create hd
        intro s hs
        exact (hcreates s hs).resolved h hdrawn hget rfl (by rw [htype]; rfl)
      · refine (hmethods d hd).resolved h ht fun c hc => ?_
        have howner := (hdrawn.methods d.type (by rw [← htypes]; exact List.mem_map_of_mem hd)).2
        rw [howner] at hc
        obtain rfl := Option.some.inj hc
        exact congrArg some hdrawn.name

end Nodes

/-- What a generated program refers to is declared in it, with as many arguments and no more
access than its declaration allows, in every function, method and constructor, whatever the
configuration and whatever the source yields. -/
theorem Program.references_resolved {ρ : Type} [WordSource ρ] (source : ρ) (config : Config)
    (attempts : Nat) {p : Program} {g' : Generator ρ}
    (h : Build.program (Generator.start source config attempts) = .ok (p, g')) :
    ∀ file ∈ p.files, ∀ r ∈ file.nodes, ∀ d ∈ r.bodies, ∀ s ∈ d.body, ∀ n ∈ s.subterms,
      n.Resolved p r.className? d := by
  have hcfg : config.Tolerated fun _ => True := Config.tolerated_of_all fun _ => trivial
  obtain ⟨⟨q, hq, rfl⟩, ht⟩ := (Build.program_runs source hcfg trivial attempts).of_ok h
  intro file hfile r hr d hd s hs
  exact hq.resolved ht (q.holds file hfile r hr) d hd s hs

/-- What a small program refers to: fields, functions and methods. -/
theorem Program.references_resolved_small : ∃ p : Program,
    p.hasOp .prop = true ∧ p.hasOp .call = true ∧ p.hasOp .methodCall = true ∧
    ∀ file ∈ p.files, ∀ r ∈ file.nodes, ∀ d ∈ r.bodies, ∀ s ∈ d.body, ∀ n ∈ s.subterms,
      n.Resolved p r.className? d := by
  obtain ⟨p, g', hrun, hops⟩ := Build.program_small
  exact ⟨p, hops _ (by decide), hops _ (by decide), hops _ (by decide),
    Program.references_resolved _ _ _ hrun⟩

end TypedPhp
