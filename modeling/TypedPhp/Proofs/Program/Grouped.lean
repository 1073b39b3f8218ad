import TypedPhp.Proofs.Program.Callables
import TypedPhp.Proofs.Program.Jumps
import TypedPhp.Proofs.Stmt.Grouped

set_option autoImplicit false

/-!
# Parentheses of a program

The generator supplies every pair of parentheses that the writer relies on. `Node.AllGrouped` says so
of some trees, with the ancestors of a node where its place matters, and
`Program.operands_grouped` of all trees of a program: its bodies, the defaults of its parameters and
the initial values of its fields. The counters of loops must not overflow, which a validated
configuration sees to.
-/

namespace TypedPhp

/-! ## Grouped trees -/

/-- The operands in some trees keep together beside their operators. Each is simple, or the
counter that the condition of a loop steps; what binds least is in parentheses; assignments are
statements; and every other node has the children, the payload and the type that its operator asks
for. -/
structure Node.AllGrouped (roots : List Node) : Prop where
  formed : ∀ n ∈ subtermsList roots, n.op.isStmt = false → n.Formed fun _ => True
  operands : ∀ above n, Occurs roots above n → ∀ x ∈ n.operands, x.isSimple = true ∨
    ∃ loop rest counter bound, above = loop :: rest ∧ loop.op.isLoop = true ∧
      n = .counterBelow counter bound ∧ x = .unary .postInc (.var counter .int)
  powers : ∀ n ∈ subtermsList roots, n.op = .exp → ∀ x ∈ n.args,
    x.isSimple = true ∧ x.op ∈ powerOps
  low : ∀ above n, Occurs roots above n → n.op.isLow = true →
    ∃ m rest, above = m :: rest ∧ m.op = .parens
  assigned : ∀ above n, Occurs roots above n → n.op = .assign ∨ n.op = .assignModify →
    above = [] ∨ ∃ m rest l, above = m :: rest ∧ m.stmts? = some l ∧ n ∈ l
  receivers : ∀ n ∈ subtermsList roots, n.op = .prop ∨ n.op = .methodCall →
    ∃ x rest, n.args = x :: rest ∧ (x.op = .var ∨ x.op = .parens)
  callees : ∀ n ∈ subtermsList roots, n.op = .call → ∃ x rest, n.args = x :: rest ∧ x.op = .name
  bases : ∀ n ∈ subtermsList roots, n.op = .index → ∃ x key, n.args = [x, key] ∧ x.op = .var
  steps : ∀ n ∈ subtermsList roots, n.op ∈ [.preInc, .preDec, .postInc, .postDec] →
    ∀ x ∈ n.args, x.op = .var
  casts : ∀ n ∈ subtermsList roots, n.op = .cast →
    ∃ k : Primitive, n.type = some (.scalar k.scalar)
  parts : ∀ n ∈ subtermsList roots, n.op = .interpolated →
    ∀ x ∈ n.args, x.op = .var ∨ ∃ bytes, x = .stringLit bytes
  literals : ∀ n ∈ subtermsList roots, n.literal? ≠ some (.int Int64.minValue)

namespace Node

variable {roots above : List Node} {n x : Node}

/-- What the operator of a node asks for, by the operators that ask for something. -/
theorem Suited.of_op (h : n.Suited) {op : Op} (hop : n.op = op) :
    (mk op n.args n.payload n.type).Suited := by
  subst hop
  obtain ⟨op, args, payload, type⟩ := n
  exact h

theorem grouped_of_mem (hroots : ∀ r ∈ roots, r.Orderly) (hn : n ∈ subtermsList roots) :
    n.Grouped := by
  obtain ⟨r, hr, hsub⟩ := mem_subtermsList.1 hn
  exact (hroots r hr).every n hsub

/-- A node of orderly trees stands at the top, or its parent may hold it. -/
theorem Occurs.held (hroots : ∀ r ∈ roots, r.Orderly) (h : Occurs roots above n) :
    above = [] ∧ n.Orderly ∨ ∃ m rest, above = m :: rest ∧ m.Holds n := by
  cases h with
  | root hn => exact Or.inl ⟨rfl, hroots n hn⟩
  | @child rest m _ hm hn =>
      exact Or.inr ⟨m, rest, rfl, (grouped_of_mem hroots hm.mem_subtermsList).holds n hn⟩

/-- Orderly trees are grouped. -/
theorem AllGrouped.of_orderly (hroots : ∀ r ∈ roots, r.Orderly) : AllGrouped roots where
  formed := fun n hn => (grouped_of_mem hroots hn).formed
  operands := by
    intro above n hocc x hx
    refine ((grouped_of_mem hroots hocc.mem_subtermsList).operands x hx).imp_right ?_
    rintro ⟨counter, bound, hn, hx⟩
    rcases hocc.held hroots with ⟨-, horderly⟩ | ⟨loop, rest, habove, hholds⟩
    · exact absurd ⟨counter, bound, hn⟩ horderly.check
    · exact ⟨loop, rest, counter, bound, habove, hholds.check ⟨counter, bound, hn⟩, hn, hx⟩
  powers := by
    intro n hn hop x hx
    have hgrouped := grouped_of_mem hroots hn
    refine ⟨?_, hgrouped.suited.of_op hop x hx⟩
    have hoperand : x ∈ n.operands := by
      rw [operands_of_isBinary (by rw [hop]; rfl)]
      exact hx
    rcases hgrouped.operands x hoperand with hsimple | ⟨counter, bound, rfl, -⟩
    · exact hsimple
    · cases hop
  low := by
    intro above n hocc hlow
    rcases hocc.held hroots with ⟨-, horderly⟩ | ⟨m, rest, habove, hholds⟩
    · rw [horderly.low] at hlow
      cases hlow
    · exact ⟨m, rest, habove, hholds.low hlow⟩
  assigned := by
    intro above n hocc hop
    have hassigns : n.op.assigns = true := by
      rcases hop with hop | hop <;> rw [hop] <;> rfl
    refine (hocc.held hroots).imp (·.1) ?_
    rintro ⟨m, rest, habove, hholds⟩
    obtain ⟨l, hl, hmem⟩ := hholds.assigns hassigns
    exact ⟨m, rest, l, habove, hl, hmem⟩
  receivers := by
    rintro n hn (hop | hop) <;> exact (grouped_of_mem hroots hn).suited.of_op hop
  callees := fun n hn hop => (grouped_of_mem hroots hn).suited.of_op hop
  bases := fun n hn hop => (grouped_of_mem hroots hn).suited.of_op hop
  steps := by
    intro n hn hop
    have hsuited := (grouped_of_mem hroots hn).suited
    simp only [List.mem_cons, List.not_mem_nil, or_false] at hop
    rcases hop with hop | hop | hop | hop <;> exact hsuited.of_op hop
  casts := by
    intro n hn hop
    obtain ⟨t, htype, ⟨k⟩⟩ := (grouped_of_mem hroots hn).suited.of_op hop
    exact ⟨k, htype⟩
  parts := fun n hn hop => (grouped_of_mem hroots hn).suited.of_op hop
  literals := fun n hn => (grouped_of_mem hroots hn).writable

end Node

/-! ## Built functions -/

variable {config : Config} {t : SymbolTable} {q : Program.Parts} {d : FuncDecl}

/-- A statement of a guard is orderly at its site. -/
theorem GuardSite.orderlyAt {f : FuncType} {s : Node} (h : GuardSite f s) : s.OrderlyAt := by
  cases h with
  | condition body =>
      refine .of_tidy rfl rfl (.call (List.forall_mem_singleton.2 (.lit nofun))) ?_
      exact List.forall_mem_singleton.2 (List.forall_mem_singleton.2 rfl)
  | block body => exact .of_isStmt rfl nofun (List.forall_mem_singleton.2 (Or.inl rfl))
  | void _ => exact .of_isStmt rfl nofun nofun
  | value hx hw => exact .of_tidy rfl rfl (hx.tidy hw) nofun

/-- The statements of a built function are orderly. -/
theorem FuncDecl.Built.orderly (ht : t.Ready) (hlimit : config.maxLoopIterations < Nat.pow 2 63)
    {isGuarded : Bool} (h : d.Built config t isGuarded) : ∀ s ∈ d.body, s.Orderly := by
  have hsited : Sited (fun _ s => s.OrderlyAt) d.type.entryVars d.body := by
    refine h.sited (fun _ _ hguard => hguard.orderlyAt) fun g vars s hin hcovers hstated => ?_
    have hwithin := hin.result_within h.drawn
    refine hstated.orderlyAt ?_ (hin.castable ht) (hin.closed ht) hwithin hcovers
    rw [hin.config]
    exact hlimit
  exact hsited.orderly

theorem Node.Creates.orderly {type : ClassType} {c : ClassRef} {s : Node} (h : s.Creates type c) :
    s.Orderly := by
  obtain ⟨-, -, -⟩ := h
  refine Node.OrderlyAt.orderly ?_ rfl
  exact .assign (.prop (Or.inl rfl) (.var "this" (.object c))) (.newObject _)

/-- A call of a function of the main file is tidy. -/
theorem EntryCall.tidy {env : Env} {b : Nat} {f : FuncType} {n : Node}
    (hcast : env.symbols.Castable) (hclosed : env.symbols.Closed)
    (hvisible : env.scope.visible = []) (hf : ∀ p ∈ f.params, p.type.Writable)
    (h : EntryCall env b f n) : n.Tidy := by
  have hcall : ∀ args, Passes env b f args →
      ((Node.call f.name args).withType f.result).Tidy := by
    intro args hargs
    refine .call fun x hx => ?_
    obtain ⟨p, hzip⟩ := exists_mem_zip hargs.notMore hx
    refine (hargs.values p x hzip).tidy hcast hclosed ?_ (hf p (List.of_mem_zip hzip).1)
    rw [hvisible]
    exact nofun
  cases h with
  | dump _ hargs => exact .call (forall_mem_pair (.name _) (hcall _ hargs))
  | call _ hargs => exact hcall _ hargs

/-! ## Programs -/

/-- The trees of a built program are orderly. -/
theorem Program.Parts.Built.orderly (h : q.Built config t) (ht : t.Ready)
    (hlimit : config.maxLoopIterations < Nat.pow 2 63) : ∀ n ∈ q.program.trees, n.Orderly := by
  have hstart : (Node.call "main" []).Tidy := .call nofun
  refine h.forall_trees hstart.orderly (fun d hd s hs => ?_) fun n hn => ?_
  · rcases h.callable_cases hd with ⟨isGuarded, hbuilt⟩ | rfl | ⟨type, i, -, hd⟩
    · exact hbuilt.orderly ht hlimit s hs
    · obtain ⟨m, hm, env, b, rfl, hvisible, -, hcall⟩ := h.entry.entryCall hs
      have hparams : ∀ p ∈ m.type.params, p.type.Writable :=
        fun p hp => ((h.funcs m hm).1.drawn.within p hp).writable
      exact (hcall.tidy ht.castable ht.closed hvisible hparams).orderly
    · exact ((ClassType.constructors_create hd).2 s hs).orderly
  · obtain ⟨type, hconst, hw⟩ := h.ofConstant hn
    exact (hconst.tidy hw).orderly

/-- The operands in a generated program keep together beside their operators, for every validated
configuration and whatever the source yields, and no constant of it assigns. -/
theorem Program.operands_grouped {ρ : Type} [WordSource ρ] (source : ρ) {config : Config}
    (attempts : Nat) (hvalid : config.validate = .ok ()) {p : Program} {g' : Generator ρ}
    (h : Build.program (Generator.start source config attempts) = .ok (p, g')) :
    Node.AllGrouped p.trees ∧ ∀ x ∈ p.constants, x.op ≠ .assign ∧ x.op ≠ .assignModify := by
  have hcfg : config.Tolerated fun _ => True := Config.tolerated_of_all fun _ => trivial
  obtain ⟨⟨q, hbuilt, rfl⟩, ht⟩ := (Build.program_runs source hcfg trivial attempts).of_ok h
  have hlimit := Config.maxLoopIterations_lt_of_validate hvalid
  refine ⟨.of_orderly (hbuilt.orderly ht hlimit), fun x hx => ?_⟩
  obtain ⟨type, hconst, hw⟩ := hbuilt.ofConstant hx
  have hassigns := ((hconst.tidy hw).every x x.self_mem_subterms).unassigned
  constructor <;> intro hop <;> rw [hop] at hassigns <;> cases hassigns

/-- The operands in a small program, which has a loop and operators of every strength. -/
theorem Program.operands_grouped_small : Config.small.validate = .ok () ∧ ∃ p : Program,
    (p.hasOp .doWhile = true ∧ p.hasOp .ternary = true ∧ p.hasOp .xorWord = true ∧
      p.hasOp .cast = true) ∧
    Node.AllGrouped p.trees ∧ ∀ x ∈ p.constants, x.op ≠ .assign ∧ x.op ≠ .assignModify := by
  have hvalid : Config.small.validate = .ok () := by decide
  obtain ⟨p, g', hrun, hops⟩ := Build.program_of_check ⟨[], 1294⟩ .small 10
    (fun p => [Op.doWhile, .ternary, .xorWord, .cast].all p.hasOp) (by decide +kernel)
  exact ⟨hvalid, p, by simpa using hops, Program.operands_grouped _ _ hvalid hrun⟩

end TypedPhp
