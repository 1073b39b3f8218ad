import TypedPhp.Proofs.Program.DumpRows
import TypedPhp.Proofs.Program.Grouped
import TypedPhp.Proofs.Read.RoundTrip

set_option autoImplicit false

/-!
# Expressions of a program are read back

Grouped trees say of a node where it stands, and operand-safe ones what the reader needs of it. The
first implies the second wherever names can be read as such (`Node.AllGrouped.operandSafe`). The
names of a program are its own numbered ones, those of helpers, and those of the table, so every
expression of a generated program is written and read back (`Program.expressions_read_back`).
-/

namespace TypedPhp

/-! ## Grouped expressions -/

namespace Node

variable {roots above : List Node} {n x m : Node}

/-- A formed node is spelled if its name can be read as such and it does not assign. -/
theorem Formed.spelled {known : ScopeVar → Prop} (h : n.Formed known) (hname : n.ReadsName)
    (hassigns : n.op.assigns = false) : n.Spelled := by
  have hident : ∀ s, n.ident? = some s → Read.isIdentifier s = true := fun s hs =>
    (Read.isName_cases (hname s hs)).1
  cases h with
  | parens x type => exact .parens x type
  | literal l => exact .literal l _
  | null type => exact .null type
  | var _ => exact .var _ (hident _ rfl)
  | name s => exact .name _ (hname s rfl)
  | arrayLit elems type => exact .arrayLit elems type
  | tupleLit elems type => exact .tupleLit elems type
  | interpolated type hparts =>
      refine .interpolated type fun p hp => (hparts p hp).imp_right ?_
      rintro ⟨bytes, rfl⟩
      exact ⟨bytes, rfl⟩
  | new c type => exact .new type (hname c rfl)
  | prop object field type => exact .prop object type (hident field rfl)
  | call callee args type => exact .call callee args type
  | methodCall object method args type => exact .methodCall object args type (hident method rfl)
  | index x key type => exact .index x key type
  | cast x ht => exact .cast x ht
  | ternary cond x y => exact .ternary cond x y _
  | unary x hop => exact .unary x _ hop
  | binary x y type hop => exact .binary x y type hop
  | assign lhs rhs => cases hassigns
  | assignModify lhs rhs hop => cases hassigns

/-- A node of an expression that occurs is its root, or has its parent in the expression. -/
theorem Occurs.subterm_below (h : Occurs roots above x) (hm : m ∈ x.subterms) :
    m = x ∨ ∃ above' p, Occurs roots (p :: above') m ∧ p ∈ x.subterms := by
  induction x using inductionOn generalizing above with
  | node op args payload type ih =>
      have hchild : ∀ y ∈ args, Occurs roots (mk op args payload type :: above) y :=
        fun y hy => .child h hy
      rw [subterms] at hm
      rcases List.mem_cons.1 hm with rfl | hm
      · exact Or.inl rfl
      · obtain ⟨y, hy, hm⟩ := Node.mem_subtermsList.1 hm
        right
        rcases ih y hy (hchild y hy) hm with rfl | ⟨above', p, hocc, hp⟩
        · exact ⟨above, _, hchild m hy, self_mem_subterms _⟩
        · exact ⟨above', p, hocc, mem_subterms_of_args hy hp⟩

namespace AllGrouped

variable (h : AllGrouped roots)

include h

/-- A child of what occurs binds least only in parentheses. -/
theorem low_child (hocc : Occurs roots above n) (hop : n.op ≠ .parens) :
    ∀ x ∈ n.args, x.op.isLow = false := by
  intro x hx
  by_contra hlow
  obtain ⟨p, rest, heq, hparens⟩ := h.low _ x (.child hocc hx) (eq_true_of_ne_false hlow)
  obtain ⟨rfl, -⟩ := List.cons.inj heq
  exact hop hparens

/-- Assignments are statements, so none is in an expression that is none itself. -/
theorem assigns_eq_false (hocc : Occurs roots above x) (hfree : x.StmtFree)
    (hassigns : x.op.assigns = false) (hm : m ∈ x.subterms) : m.op.assigns = false := by
  rcases hocc.subterm_below hm with rfl | ⟨above', p, hocc', hp⟩
  · exact hassigns
  · by_contra hne
    have hop : m.op = .assign ∨ m.op = .assignModify := by
      revert hne
      cases m.op <;> simp [Op.assigns]
    rcases h.assigned _ m hocc' hop with heq | ⟨q, rest, l, heq, hl, -⟩
    · cases heq
    · obtain ⟨rfl, -⟩ := List.cons.inj heq
      rw [Controlled.stmts?_eq_none (hfree p hp)] at hl
      cases hl

/-- A node of grouped trees that is neither a statement nor an assignment is safe if its name can be
read as such. -/
theorem safe (hocc : Occurs roots above n) (hstmt : n.op.isStmt = false)
    (hassigns : n.op.assigns = false) (hname : n.ReadsName) : n.Safe where
  spelled := (h.formed n hocc.mem_subtermsList hstmt).spelled hname hassigns
  operands := by
    intro x hx
    rcases h.operands above n hocc x hx with hsimple | ⟨_, _, counter, _, -, -, -, rfl⟩
    · exact Or.inl hsimple
    · exact Or.inr rfl
  powers := h.powers n hocc.mem_subtermsList
  steps := h.steps n hocc.mem_subtermsList
  low := h.low_child hocc
  unassigned := by
    constructor <;> intro hop <;> rw [hop] at hassigns <;> cases hassigns
  receiver := by
    intro hop x hx
    obtain ⟨y, rest, hargs, hy⟩ := h.receivers n hocc.mem_subtermsList hop
    rw [hargs] at hx
    obtain rfl := Option.some.inj hx
    exact hy
  callee := by
    intro hop x hx
    obtain ⟨y, rest, hargs, hy⟩ := h.callees n hocc.mem_subtermsList hop
    rw [hargs] at hx
    obtain rfl := Option.some.inj hx
    exact hy
  base := by
    intro hop x hx
    obtain ⟨y, key, hargs, hy⟩ := h.bases n hocc.mem_subtermsList hop
    rw [hargs] at hx
    obtain rfl := Option.some.inj hx
    exact hy
  literal := h.literals n hocc.mem_subtermsList

/-- The expressions in grouped trees are operand-safe where names can be read as such: those that
hold no statement, do not assign, and do not bind least. -/
theorem operandSafe (hnames : ∀ n ∈ subtermsList roots, n.ReadsName) (hx : x ∈ subtermsList roots)
    (hfree : x.StmtFree) (hassigns : x.op.assigns = false) (hlow : x.op.isLow = false) :
    x.OperandSafe := by
  obtain ⟨above, hocc⟩ := mem_subtermsList_iff_occurs.1 hx
  refine ⟨fun m hm => ?_, hlow⟩
  obtain ⟨above', hocc'⟩ := hocc.subterm hm
  exact h.safe hocc' (hfree m hm) (h.assigns_eq_false hocc hfree hassigns hm)
    (hnames m hocc'.mem_subtermsList)

end AllGrouped

end Node

/-! ## Names of a program -/

section Names

variable {config : Config} {t : SymbolTable} {q : Program.Parts} {d : FuncDecl} {s : Node}

/-- A weaker condition is admitted where a condition is that what refers to the table satisfies. -/
theorem Env.AdmitsOver.mono {C : ClassRef → Prop} {env : Env} {P Q : Node → Prop}
    (h : env.AdmitsOver C P) (hPQ : ∀ n, P n → Q n) : env.AdmitsOver C Q where
  plain := fun n hn => hPQ n (h.plain n hn)
  var := fun v hv => hPQ _ (h.var v hv)
  helper := fun e he => hPQ _ (h.helper e he)
  function := fun f hf => hPQ _ (h.function f hf)
  new := fun c hc type => hPQ _ (h.new c hc type)
  linked := fun n hop hn => hPQ n (h.linked n hop hn)

/-- Names that can be read as such are admitted in bodies over a table with ordinary names. -/
theorem Covers.admits_readsName {g : Generator Unit} {vars : List ScopeVar} (hg : Covers vars g)
    (hnames : g.symbols.Ordinary) : g.env.AdmitsInBody Node.ReadsName where
  admits := (hg.admits_ordinary hnames).mono fun _ hn => hn.readsName
  introduced := fun _ hv => (Node.Ordinary.of_name rfl hv.ordinary).readsName
  helper := .of_name rfl (by decide)
  line := .of_name rfl (by decide)
  dump := fun _ => (Node.Ordinary.of_none rfl).readsName

/-- The names in a statement of a guard can be read as such. -/
theorem GuardSite.readsNames {f : FuncType} (h : GuardSite f s) : s.SiteEvery Node.ReadsName := by
  have hnone : ∀ {n : Node}, n.ident? = none → n.ReadsName := fun hn =>
    (Node.Ordinary.of_none hn).readsName
  have hordinary : ∀ {x : Node}, x.Every Node.Ordinary → ∀ y ∈ [x], y.Every Node.ReadsName :=
    fun hx => List.forall_mem_singleton.2 (hx.mono fun _ hm => hm.readsName)
  cases h with
  | condition body => exact .simple (hnone rfl) nofun (hordinary (Node.visit_ordinary _))
  | block body => exact .simple (hnone rfl) nofun nofun
  | void _ => exact .simple (hnone rfl) nofun nofun
  | value hx _ => exact .simple (hnone rfl) nofun (hordinary hx.ordinary)

/-- The names in the body of a built function can be read as such. -/
theorem FuncDecl.Built.readsNames (ht : t.Ready) (hnames : t.Ordinary) {isGuarded : Bool}
    (h : d.Built config t isGuarded) : ∀ s ∈ d.body, s.Every Node.ReadsName := by
  have hsited : Sited (fun _ s => s.SiteEvery Node.ReadsName) d.type.entryVars d.body := by
    refine h.sited (fun _ _ hguard => hguard.readsNames) fun g vars s hin hcovers hstated => ?_
    have hnames' : g.symbols.Ordinary := by
      rw [hin.symbols]
      exact hnames
    exact hstated.every (hin.closed ht) (hin.result_within h.drawn) hcovers
      (hcovers.admits_readsName hnames')
  exact Sited.every (fun _ _ hs => ⟨hs.root, hs.uses, hs.assigned⟩) hsited

/-- The names in a dump can be read as such. -/
theorem Node.dump_readsNames {x : Node} (hx : x.Every Node.Ordinary) :
    (Node.call "fuzz_dump" [.name "__LINE__", x]).Every Node.ReadsName := by
  refine .node (Node.Ordinary.of_none rfl).readsName (List.forall_mem_cons.2 ⟨?_, ?_⟩)
  · exact .leaf (.of_name rfl (by decide))
  · exact forall_mem_pair (.leaf (.of_name rfl (by decide))) (hx.mono fun _ hm => hm.readsName)

/-- The names of a built program can be read as such. -/
theorem Program.Parts.Built.readsNames (h : q.Built config t) (ht : t.Ready) :
    ∀ n ∈ q.program.trees, n.Every Node.ReadsName := by
  have hmain : OrdinaryName "main" := by decide
  have hstart : (Node.call "main" []).Every Node.Ordinary :=
    .one (.of_none rfl) (.leaf (.of_name rfl hmain))
  have hreads : ∀ {n : Node}, n.Every Node.Ordinary → n.Every Node.ReadsName := fun hn =>
    hn.mono fun _ hm => hm.readsName
  refine h.forall_trees (hreads hstart) (fun d hd s hs => ?_) fun n hn => ?_
  · rcases h.callable_cases hd with ⟨isGuarded, hbuilt⟩ | rfl | ⟨type, i, hdrawn, hd⟩
    · exact hbuilt.readsNames ht h.ordinary s hs
    · obtain ⟨x, -, hx, rfl | rfl⟩ := h.entryCall_ordinary ht hs
      · exact Node.dump_readsNames hx
      · exact hreads hx
    · exact hreads (hdrawn.creates_ordinary ((ClassType.constructors_create hd).2 s hs))
  · obtain ⟨type, hconst, -⟩ := h.ofConstant hn
    exact hreads hconst.ordinary

end Names

/-! ## Programs -/

/-- The expressions of a generated program are operand-safe, for every validated configuration and
whatever the source yields, and each is written and read back as what is left of it: all nodes of
its trees that hold no statement, do not assign, and do not bind least. -/
theorem Program.expressions_read_back {ρ : Type} [WordSource ρ] (source : ρ) {config : Config}
    (attempts : Nat) (hvalid : config.validate = .ok ()) {p : Program} {g' : Generator ρ}
    (h : Build.program (Generator.start source config attempts) = .ok (p, g')) {x : Node}
    (hx : x ∈ Node.subtermsList p.trees) (hfree : x.StmtFree) (hassigns : x.op.assigns = false)
    (hlow : x.op.isLow = false) :
    x.OperandSafe ∧ ∃ text, Print.expr x = .ok text ∧ Read.read text = some x.strip := by
  have hcfg : config.Tolerated fun _ => True := Config.tolerated_of_all fun _ => trivial
  obtain ⟨⟨q, hbuilt, rfl⟩, ht⟩ := (Build.program_runs source hcfg trivial attempts).of_ok h
  have hlimit := Config.maxLoopIterations_lt_of_validate hvalid
  have hgrouped := Node.AllGrouped.of_orderly (hbuilt.orderly ht hlimit)
  have hnames : ∀ n ∈ Node.subtermsList q.program.trees, n.ReadsName := by
    intro n hn
    obtain ⟨r, hr, hn⟩ := Node.mem_subtermsList.1 hn
    exact hbuilt.readsNames ht r hr n hn
  have hsafe := hgrouped.operandSafe hnames hx hfree hassigns hlow
  obtain ⟨text, hwritten, hlex⟩ := (hsafe.1.mono fun _ hm => hm.spelled).printed
  exact ⟨hsafe, text, hwritten, hsafe.1.readable.read_text hlow hlex⟩

end TypedPhp
