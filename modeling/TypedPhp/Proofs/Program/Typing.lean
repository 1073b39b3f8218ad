import TypedPhp.Proofs.Program.Structure
import TypedPhp.Proofs.Stmt.Typing

set_option autoImplicit false

/-!
# Well-typed programs

A function is well typed if the defaults of its parameters fit and every statement is well typed at
its site. Constructors are an exception: they do nothing but create the objects that fields hold.
The function that calls the others is one too, since the functions of the main file are in no table.
`Program.statements_typed` says that every top-level node of a generated program is well typed.
-/

namespace TypedPhp

/-! ## Typing of declarations -/

/-- A function is well typed. -/
structure FuncDecl.Typed (table : SymbolTable) (d : FuncDecl) : Prop where
  defaults : ∀ p ∈ d.type.params, ∀ x, p.default = some x → Fits [] p.type x
  body : Sited (fun vars s => WellTyped table vars d.type.result s) d.type.entryVars d.body

/-- A constructor of a class creates the objects of fields. -/
structure FuncDecl.Constructs (type : ClassType) (c : ClassRef) (d : FuncDecl) : Prop where
  signature : d.type = .method "__construct" [] .void c
  creates : ∀ s ∈ d.body, s.Creates type c

/-- A statement calls a function of a file with fitting arguments, in a dump unless the function
returns nothing. -/
inductive Node.Enters (nodes : List RootNode) : Node → Prop where
  | dump {d : FuncDecl} {n : Node} : .func d ∈ nodes → d.type.result.canDump = true →
      CallFits [] d.type n → Enters nodes (.call "fuzz_dump" [.name "__LINE__", n])
  | call {d : FuncDecl} {n : Node} : .func d ∈ nodes → d.type.result = .void →
      CallFits [] d.type n → Enters nodes n

/-- A top-level node is well typed in a file with the given nodes. -/
inductive RootNode.Typed (table : SymbolTable) (nodes : List RootNode) : RootNode → Prop where
  | require (path : String) : Typed table nodes (.require path)
  | start : Typed table nodes (.stmt (.call "main" []))
  | ofClass {type : ClassType} {c : ClassRef} {decls : List FuncDecl} : type.name = c.name →
      (∀ f ∈ type.fields, ∀ x, f.init = some x → Fits [] f.type x) →
      (∀ d ∈ decls, d.type.owner = some c ∧ (d.Constructs type c ∨ d.Typed table)) →
      Typed table nodes (.classDecl type decls)
  | func {d : FuncDecl} : d.Typed table → Typed table nodes (.func d)
  | entry {d : FuncDecl} : d.type = .function "main" [] .void → (∀ s ∈ d.body, s.Enters nodes) →
      Typed table nodes (.func d)

/-! ## Built declarations -/

variable {config : Config} {t : SymbolTable}

/-- The statements of a guard are well typed. -/
theorem GuardSite.wellTyped {f : FuncType} {vars : List ScopeVar} {s : Node} (h : GuardSite f s) :
    WellTyped t vars f.result s := by
  cases h with
  | condition body => exact .guard _ _
  | block body => exact .block body
  | void hvoid =>
      apply WellTyped.returnVoid
      rw [hvoid]
      rfl
  | value hx _ => exact .returnValue hx.not_isVoid hx.fits

/-- A built function is well typed. -/
theorem FuncDecl.Built.typed {isGuarded : Bool} {d : FuncDecl} (h : d.Built config t isGuarded) :
    d.Typed t := by
  refine ⟨fun p hp x hx => ((h.drawn.params p hp).default x hx).constant.fits, ?_⟩
  refine h.sited (fun _ _ hguard => hguard.wellTyped) fun g vars s hin hcovers hstated => ?_
  have htyped := hstated.wellTyped hcovers
  rw [hin.symbols, hin.currentResult] at htyped
  exact htyped

/-- A built class is well typed. -/
theorem RootNode.ClassBuilt.typed {nodes : List RootNode} {n : RootNode} {i : Nat}
    (h : n.ClassBuilt config t i) : n.Typed t nodes := by
  obtain ⟨hdrawn, -, hmethods, htypes⟩ := h
  refine .ofClass hdrawn.name (fun f hf x hx => ((hdrawn.fields f hf).init_constant hx).fits) ?_
  intro d hd
  -- The constructor, if there is one, stands before the methods.
  rcases List.mem_append.1 hd with hd | hd
  · obtain ⟨hty, hcreates⟩ := ClassType.constructors_create hd
    refine ⟨by rw [hty]; rfl, Or.inl ⟨hty, fun s hs => ?_⟩⟩
    obtain ⟨hf, hfield, hinit⟩ := hcreates s hs
    exact .of hf hfield hinit
  · refine ⟨?_, Or.inr (hmethods d hd).typed⟩
    apply (hdrawn.methods d.type _).2
    rw [← htypes]
    exact List.mem_map_of_mem hd

/-- Expressions that are passed to a drawn function, where nothing is in scope, fit it. -/
theorem Passes.fits {env : Env} {b : Nat} {f : FuncType} {args : List Node} {known : List String}
    (hf : f.Drawn known) (hvisible : env.scope.visible = []) (h : Passes env b f args) :
    ArgsFit [] f args := by
  refine ⟨h.enough, h.notMore, fun p x hx => ?_⟩
  have hfits : Fits env.scope.visible p.type x := (h.values p x hx).fits
  rw [hvisible] at hfits
  exact .plain (hf.uncast p (List.of_mem_zip hx).1) hfits

/-- A built call of a function of the main file is well typed. -/
theorem EntryCall.enters {env : Env} {b : Nat} {d : FuncDecl} {nodes : List RootNode} {n : Node}
    {known : List String} (hd : .func d ∈ nodes) (hdrawn : d.type.Drawn known)
    (howner : d.type.owner = none)
    (hvisible : env.scope.visible = []) (h : EntryCall env b d.type n) : n.Enters nodes := by
  cases h with
  | dump hdump hargs => exact .dump hd hdump (.function howner (hargs.fits hdrawn hvisible))
  | call hdump hargs =>
      refine .call hd ?_ (.function howner (hargs.fits hdrawn hvisible))
      rcases hdrawn.result with hvoid | hflat
      · exact hvoid
      · rw [hflat.canDump] at hdump
        cases hdump

/-- A built top-level node is well typed. -/
theorem RootNode.Built.typed {nodes : List RootNode} {n : RootNode} (h : n.Built config t nodes) :
    n.Typed t nodes := by
  cases h with
  | require path => exact .require path
  | start => exact .start
  | ofClass h => exact h.typed
  | func h => exact .func h.typed
  | entry hfuncs h =>
      refine .entry h.type ?_
      intro s hs
      obtain ⟨d, hmem, env, b, -, hvisible, -, hcall⟩ := h.entryCall hs
      obtain ⟨hd, hbuilt, howner⟩ := hfuncs d hmem
      exact hcall.enters hd hbuilt.drawn howner hvisible

/-! ## Programs -/

/-- Every statement of a generated program is well typed, with its initial values and defaults,
whatever the configuration and whatever the source yields. -/
theorem Program.statements_typed {ρ : Type} [WordSource ρ] (source : ρ) (config : Config)
    (attempts : Nat) {p : Program} {g' : Generator ρ}
    (h : Build.program (Generator.start source config attempts) = .ok (p, g')) :
    ∀ file ∈ p.files, ∀ n ∈ file.nodes, n.Typed g'.symbols file.nodes := by
  have hcfg : config.Tolerated fun _ => True := Config.tolerated_of_all fun _ => trivial
  obtain ⟨hbuilt, -⟩ := (Build.program_runs source hcfg trivial attempts).of_ok h
  exact fun file hfile n hn => (hbuilt.node file hfile n hn).typed

/-- The statements of a small program, with assignments of both kinds and a return of a value. -/
theorem Program.statements_typed_small : ∃ (p : Program) (t : SymbolTable),
    p.hasOp .assign = true ∧ p.hasOp .assignModify = true ∧ p.hasOp .returnValue = true ∧
    ∀ file ∈ p.files, ∀ n ∈ file.nodes, n.Typed t file.nodes := by
  obtain ⟨p, g', hrun, hops⟩ := Build.program_small
  exact ⟨p, g'.symbols, hops _ (by decide), hops _ (by decide), hops _ (by decide),
    Program.statements_typed _ _ _ hrun⟩

end TypedPhp
