import TypedPhp.Proofs.Program.Callables
import TypedPhp.Proofs.Program.Callees
import TypedPhp.Proofs.Program.Jumps
import TypedPhp.Proofs.Stmt.Hedged

set_option autoImplicit false

/-!
# Hedged operators of a program

No operator of a generated program can fail or compare floats exactly. `Node.AllHedged` says so of
some trees, with the ancestors of a node where its place matters, and `Program.operators_hedged` of
all trees of a program: its bodies, the defaults of its parameters and the initial values of its
fields.
-/

namespace TypedPhp

/-! ## Hedged trees -/

/-- The operators of some trees are hedged. Nothing divides but the helpers, whose results are
cast to the kind of their operands at once; the distance of a shift is masked; what may leave the
integers is cast back to them; and no float is compared, or decides a switch, by equality. -/
structure Node.AllHedged (roots : List Node) : Prop where
  quotient : ∀ n ∈ subtermsList roots, n.op ≠ .div ∧ n.op ≠ .mod
  modifies : ∀ n ∈ subtermsList roots, n.op = .assignModify →
    ∀ op ∈ Op.riskyAssignments, n.payload ≠ some (.op op)
  masked : ∀ n ∈ subtermsList roots, n.op ∈ Op.shifts →
    ∃ x y, n.args = [x, (Node.binary .bitAnd y (.intLit 63)).parens]
  castBack : ∀ above n, Occurs roots above n → n.Raw →
    ∃ rest, above = n.parens :: .cast .int n.parens :: rest
  exactly : ∀ n ∈ subtermsList roots, n.op.IsEquality → ∀ x ∈ n.args,
    ∀ vars, ¬ Fits vars .float x
  discrete : ∀ n ∈ subtermsList roots, n.op = .switch ∨ n.op = .case →
    ∀ x, n.args.head? = some x → ∀ vars, ¬ Fits vars .float x
  divided : ∀ above n, Occurs roots above n → n.Divides → ∃ k vars rest,
    (k = .int ∨ k = .float) ∧ above = .cast (.scalar k) n :: rest ∧
      ∀ x ∈ n.args.tail, Fits vars (.scalar k) x

namespace Node

variable {roots : List Node}

/-- The operators of calm trees are hedged. -/
theorem AllHedged.of_calm (hroots : ∀ r ∈ roots, r.Calm) : AllHedged roots := by
  have hevery : ∀ m ∈ subtermsList roots, m.Hedged := by
    intro m hm
    obtain ⟨r, hr, hsub⟩ := mem_subtermsList.1 hm
    exact (hroots r hr).every m hsub
  exact ⟨fun m hm => (hevery m hm).quotient, fun m hm => (hevery m hm).modifies,
    fun m hm => (hevery m hm).masked, fun _ _ hocc hraw => hocc.castBack hroots hraw,
    fun m hm => (hevery m hm).exactly, fun m hm => (hevery m hm).discrete,
    fun _ _ hocc hdivides => hocc.divided hroots hdivides⟩

end Node

/-! ## Built functions -/

variable {config : Config} {t : SymbolTable} {q : Program.Parts} {d : FuncDecl}

/-- No function that can be called in a body is named like a helper that divides. -/
theorem Program.Parts.Built.noDivider (h : q.Built config t) : ∀ f ∈ t.funcs, f.NoDivider := by
  intro f hf howner
  rcases h.known f hf with hbuiltin | hlib | ⟨i, -, howner', -, -⟩
  · have hbuiltins : ∀ f ∈ Catalog.builtins, f.name ∉ dividers := by decide
    exact hbuiltins f hbuiltin
  · obtain ⟨d, hd, rfl⟩ := List.mem_map.1 hlib
    obtain ⟨i, k, hname⟩ := h.libName hd
    have hdividers : ∀ name ∈ dividers, name.toList.head? = some 'f' := by decide
    intro hmem
    have hhead := hdividers _ hmem
    rw [hname] at hhead
    simp [libFuncName, String.toList_append] at hhead
  · rw [howner] at howner'
    cases howner'

/-- A statement of a guard is calm at its site. -/
theorem GuardSite.calmAt {f : FuncType} {s : Node} (h : GuardSite f s) : s.CalmAt := by
  cases h with
  | condition body =>
      refine .of_op rfl rfl nofun (List.forall_mem_singleton.2 ?_)
      exact .call (by decide) (List.forall_mem_singleton.2 (.leaf rfl rfl))
  | block body => exact .of_op rfl rfl nofun nofun
  | void _ => exact .of_op rfl rfl nofun nofun
  | value hx _ => exact .of_op rfl rfl nofun (List.forall_mem_singleton.2 hx.calm)

/-- The statements of a built function are calm. -/
theorem FuncDecl.Built.calm (hnames : ∀ f ∈ t.funcs, f.NoDivider) {isGuarded : Bool}
    (h : d.Built config t isGuarded) : ∀ s ∈ d.body, s.Calm := by
  have hsited : Sited (fun _ s => s.CalmAt) d.type.entryVars d.body := by
    refine h.sited (fun _ _ hguard => hguard.calmAt) fun g vars s hin _ hstated => ?_
    refine hstated.calmAt ?_
    rw [hin.symbols]
    exact hnames
  exact hsited.calm

theorem Node.Creates.calm {type : ClassType} {c : ClassRef} {s : Node} (h : s.Creates type c) :
    s.Calm := by
  obtain ⟨-, -, -⟩ := h
  exact .two rfl rfl (.one rfl rfl (.leaf rfl rfl)) (.leaf rfl rfl)

/-- A call of a function of the main file is calm. -/
theorem EntryCall.calm {env : Env} {b i : Nat} {f : FuncType} {n : Node}
    (hnames : ∀ f ∈ env.symbols.funcs, f.NoDivider) (hname : f.name = mainFuncName i)
    (h : EntryCall env b f n) : n.Calm := by
  have hcall : ∀ args, Passes env b f args →
      ((Node.call f.name args).withType f.result).Calm := by
    intro args hargs
    have hdivider : f.name ∉ dividers := by
      have hdividers : ∀ name ∈ dividers, name.toList.take 2 ≠ ['f', 'n'] := by decide
      intro hmem
      refine hdividers _ hmem ?_
      rw [hname, take_mainFuncName]
    refine .call hdivider fun x hx => ?_
    obtain ⟨p, hzip⟩ := exists_mem_zip hargs.notMore hx
    exact (hargs.values p x hzip).calm hnames trivial
  cases h with
  | dump _ hargs =>
      exact .call (by decide) (forall_mem_pair (.leaf rfl rfl) (hcall _ hargs))
  | call _ hargs => exact hcall _ hargs

/-! ## Programs -/

/-- The trees of a built program are calm. -/
theorem Program.Parts.Built.calm (h : q.Built config t) : ∀ n ∈ q.program.trees, n.Calm := by
  have hnames := h.noDivider
  refine h.forall_trees (.call (by decide) nofun) (fun d hd s hs => ?_) fun n hn => ?_
  · rcases h.callable_cases hd with ⟨isGuarded, hbuilt⟩ | rfl | ⟨type, i, -, hd⟩
    · exact hbuilt.calm hnames s hs
    · obtain ⟨m, hm, env, b, rfl, -, -, hcall⟩ := h.entry.entryCall hs
      obtain ⟨i, hname⟩ := h.funcName hm
      exact hcall.calm hnames hname
    · exact ((ClassType.constructors_create hd).2 s hs).calm
  · obtain ⟨type, hconst, -⟩ := h.ofConstant hn
    exact hconst.calm

/-- The operators of a generated program are hedged, whatever the configuration and whatever the
source yields. -/
theorem Program.operators_hedged {ρ : Type} [WordSource ρ] (source : ρ) (config : Config)
    (attempts : Nat) {p : Program} {g' : Generator ρ}
    (h : Build.program (Generator.start source config attempts) = .ok (p, g')) :
    Node.AllHedged p.trees := by
  have hcfg : config.Tolerated fun _ => True := Config.tolerated_of_all fun _ => trivial
  obtain ⟨⟨q, hbuilt, rfl⟩, -⟩ := (Build.program_runs source hcfg trivial attempts).of_ok h
  exact .of_calm hbuilt.calm

/-- The operators of a small program, which shifts, takes a power and divides. -/
theorem Program.operators_hedged_small : ∃ p : Program,
    p.hasOp .shiftLeft = true ∧ p.hasOp .exp = true ∧
    "fuzz_safe_div" ∈ Node.collect Node.callee? p.trees ∧ Node.AllHedged p.trees := by
  obtain ⟨p, g', hrun, hops⟩ := Build.program_of_check ⟨[], 188⟩ .small 10
    (fun p => p.hasOp .shiftLeft && p.hasOp .exp &&
      (Node.collect Node.callee? p.trees).contains "fuzz_safe_div") (by decide +kernel)
  obtain ⟨hops, hcalls⟩ := Bool.and_eq_true_iff.1 hops
  obtain ⟨hshift, hexp⟩ := Bool.and_eq_true_iff.1 hops
  exact ⟨p, hshift, hexp, List.contains_iff_mem.1 hcalls, Program.operators_hedged _ _ _ hrun⟩

end TypedPhp
