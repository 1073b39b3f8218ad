import TypedPhp.Proofs.Expr.Grouped
import TypedPhp.Proofs.Stmt.Jumps
import TypedPhp.Proofs.Stmt.Loops

set_option autoImplicit false

/-!
# Parentheses in statements

A statement evaluates tidy expressions only, apart from the condition of a loop, which steps the
counter of the loop beside its comparison. `Node.Grouped` is what is left of the condition on the
nodes of expressions where statements and loops are nodes too. A statement list in which every site
is orderly consists of orderly statements (`Sited.orderly`), and every statement that is built is
orderly at its site (`Stated.orderlyAt`).
-/

namespace TypedPhp

namespace Node

/-! ## Nodes with their children -/

/-- A node is the condition of a loop, which steps a counter. -/
def IsCheck (n : Node) : Prop := ∃ counter bound, n = .counterBelow counter bound

/-- A node may hold a child. What binds least is held in parentheses, the condition of a loop by
the loop, and an assignment by a statement list. -/
structure Holds (n x : Node) : Prop where
  low : x.op.isLow = true → n.op = .parens
  check : x.IsCheck → n.op.isLoop = true
  assigns : x.op.assigns = true → ∃ l, n.stmts? = some l ∧ x ∈ l

/-- A node keeps its children apart. What it stands beside is simple, or the counter that the
condition of a loop steps. -/
structure Grouped (n : Node) : Prop where
  formed : n.op.isStmt = false → n.Formed fun _ => True
  operands : ∀ x ∈ n.operands, x.isSimple = true ∨
    ∃ counter bound, n = .counterBelow counter bound ∧ x = .unary .postInc (.var counter .int)
  suited : n.Suited
  writable : n.Writable
  holds : ∀ x ∈ n.args, n.Holds x

/-- A statement is orderly: all nodes in it keep their children apart, and it can stand in a
statement list. -/
structure Orderly (n : Node) : Prop where
  every : n.Every Grouped
  low : n.op.isLow = false
  check : ¬ n.IsCheck

variable {n s x : Node} {op : Op} {args : List Node}

theorem not_isCheck_of_op (h : n.op ≠ .less) : ¬ n.IsCheck := by
  rintro ⟨counter, bound, rfl⟩
  exact h rfl

/-- The operands of a bracketed node are simple, so none of them steps a counter. -/
theorem Bracketed.not_isCheck (h : n.Bracketed) : ¬ n.IsCheck := by
  rintro ⟨counter, bound, rfl⟩
  exact nomatch h.operands (.unary .postInc (.var counter .int)) List.mem_cons_self

/-- The nodes of a bracketed expression keep their children apart. -/
theorem Every.grouped (h : n.Every Bracketed) : n.Every Grouped := by
  intro m hm
  have hself := h m hm
  refine ⟨fun _ => hself.formed, fun x hx => Or.inl (hself.operands x hx), hself.suited,
    hself.writable, fun x hx => ?_⟩
  have hchild := h x (mem_subterms_trans hm (mem_subterms_of_args hx x.self_mem_subterms))
  refine ⟨fun hlow => ?_, fun hcheck => absurd hcheck hchild.not_isCheck, fun hassigns => ?_⟩
  · by_contra hne
    rw [hself.low hne x hx] at hlow
    cases hlow
  · rw [hchild.unassigned] at hassigns
    cases hassigns

theorem Tidy.orderly (h : n.Tidy) : n.Orderly :=
  ⟨h.every.grouped, h.low, (h.every n n.self_mem_subterms).not_isCheck⟩

/-- Every node may hold a tidy expression. -/
theorem Tidy.held (h : x.Tidy) : x.Every Grouped ∧ n.Holds x := by
  refine ⟨h.every.grouped, fun hlow => ?_, fun hcheck => absurd hcheck h.orderly.check,
    fun hassigns => ?_⟩
  · rw [h.low] at hlow
    cases hlow
  · rw [(h.every x x.self_mem_subterms).unassigned] at hassigns
    cases hassigns

/-! ## Statements at their sites -/

/-- A statement is orderly at its site: it keeps its children apart if it may hold them, it may
hold what it evaluates and assigns, and it holds assignments in a statement list. -/
structure OrderlyAt (s : Node) : Prop where
  low : s.op.isLow = false
  check : ¬ s.IsCheck
  grouped : (∀ x ∈ s.args, s.Holds x) → s.Grouped
  uses : ∀ x ∈ s.uses, x.Every Grouped ∧ s.Holds x
  assigned : s.op = .assign → ∀ x ∈ s.args, x.Tidy
  bodies : ∀ body ∈ s.bodies, s.stmts? = some body ∨ ∀ x ∈ body, x.op.assigns = false

namespace OrderlyAt

/-- A statement that is neither an assignment nor a call. -/
theorem of_isStmt (hop : op.isStmt = true)
    (huses : ∀ x ∈ (Node.ofArgs op args).uses, x.Every Grouped ∧ (Node.ofArgs op args).Holds x)
    (hbodies : ∀ body ∈ (Node.ofArgs op args).bodies,
      (Node.ofArgs op args).stmts? = some body ∨ ∀ x ∈ body, x.op.assigns = false) :
    (Node.ofArgs op args).OrderlyAt := by
  cases op <;> cases hop <;>
    exact ⟨rfl, not_isCheck_of_op nofun, fun h => ⟨nofun, nofun, trivial, nofun, h⟩, huses, nofun,
      hbodies⟩

/-- A statement that evaluates one tidy expression, and whose bodies are no assignments. -/
theorem of_tidy (hop : op.isStmt = true) (huses : (Node.ofArgs op args).uses = [x]) (hx : x.Tidy)
    (hbodies : ∀ body ∈ (Node.ofArgs op args).bodies, ∀ x ∈ body, x.op.assigns = false) :
    (Node.ofArgs op args).OrderlyAt := by
  refine .of_isStmt hop ?_ fun body hbody => Or.inr (hbodies body hbody)
  rw [huses]
  exact List.forall_mem_singleton.2 hx.held

/-- An assignment of a tidy value to a tidy place. -/
theorem assign {place : Node} (hplace : place.Tidy) (hx : x.Tidy) :
    (Node.assign place x).OrderlyAt := by
  have hsides : ∀ y ∈ [place, x], y.Tidy := forall_mem_pair hplace hx
  refine ⟨rfl, not_isCheck_of_op nofun, fun h => ⟨fun _ => .assign _ _, nofun, trivial, nofun, h⟩,
    fun y hy => ?_, fun _ => hsides, nofun⟩
  obtain ⟨op, args, payload, type⟩ := place
  cases op <;> first
    | exact (hsides y hy).held
    | exact List.mem_singleton.1 hy ▸ hx.held

/-- A compound assignment of a tidy value to a tidy place. -/
theorem assignModify {place : Node} (hop : op.isBinary = true) (hplace : place.Tidy)
    (hx : x.Tidy) : (Node.assignModify op place x).OrderlyAt := by
  have hsides : ∀ y ∈ [place, x], y.Tidy := forall_mem_pair hplace hx
  exact ⟨rfl, not_isCheck_of_op nofun,
    fun h => ⟨fun _ => .assignModify _ _ hop, nofun, trivial, nofun, h⟩,
    fun y hy => (hsides y hy).held, nofun, nofun⟩

/-- A tidy call as a statement. -/
theorem call (h : s.Tidy) (hop : s.op = .call ∨ s.op = .methodCall) : s.OrderlyAt := by
  have hevery := h.orderly.every
  refine ⟨h.low, h.orderly.check, fun _ => hevery s s.self_mem_subterms, ?_, fun heq => ?_, ?_⟩
  · rw [uses_of_call hop]
    exact List.forall_mem_singleton.2 h.held
  · rw [heq] at hop
    rcases hop with hop | hop <;> cases hop
  · obtain ⟨op, args, payload, type⟩ := s
    rcases hop with rfl | rfl <;> exact nofun

end OrderlyAt

end Node

/-- Statements that are orderly at their sites are orderly. -/
theorem Sited.orderly {vars : List ScopeVar} {ns : List Node}
    (h : Sited (fun _ s => s.OrderlyAt) vars ns) : ∀ n ∈ ns, n.Orderly := by
  intro n hn
  obtain ⟨vars', hsite⟩ := Site.of_mem vars hn
  refine ⟨Sited.every_of_holds (fun _ hs => hs.grouped) (fun _ hs => hs.uses)
    (fun s hs hop x hx => (hs.assigned hop x hx).held) (fun s hs body hbody x hx hstmt => ?_)
    h n hn, (h vars' n hsite).low, (h vars' n hsite).check⟩
  refine ⟨fun hlow => ?_, fun hcheck => absurd hcheck hstmt.check, fun hassigns => ?_⟩
  · rw [hstmt.low] at hlow
    cases hlow
  · rcases hs.bodies body hbody with hstmts | hnone
    · exact ⟨body, hstmts, hx⟩
    · rw [hnone x hx] at hassigns
      cases hassigns

/-- A statement that holds no other is orderly if it is orderly at a site. -/
theorem Node.OrderlyAt.orderly {s : Node} (h : s.OrderlyAt) (hop : s.op.holdsStmts = false) :
    s.Orderly := by
  have hsited : Sited (fun _ s => s.OrderlyAt) [] [s] := Sited.simple hop h
  exact hsited.orderly s List.mem_cons_self

/-! ## Statements that are built -/

/-- A bound that is not negative is simple. -/
theorem Node.intLit_operand {bound : Int64} (h : 0 ≤ bound.toInt) :
    (Node.intLit bound).Operand := by
  have hmin : Int64.minValue.toInt = -9223372036854775808 := rfl
  refine ⟨.lit fun heq => ?_, decide_eq_true (Int64.le_iff_toInt_le.2 h)⟩
  rw [Literal.int.inj heq] at h
  omega

/-- The condition of a loop keeps the counter and the bound apart. -/
theorem Node.counterBelow_grouped {counter : String} {bound : Int64} (h : 0 ≤ bound.toInt) :
    (Node.counterBelow counter bound).Every Node.Grouped := by
  have hvar : (Node.var counter .int).Tidy := .var _ _
  have hstep : (Node.unary .postInc (.var counter .int)).Tidy := by
    refine ⟨.one ⟨.unary _ (by decide), nofun, ?_, nofun, fun _ => ?_, rfl⟩ hvar.every, rfl⟩
    · exact List.forall_mem_singleton.2 rfl
    · exact List.forall_mem_singleton.2 rfl
  have hbound := Node.intLit_operand h
  refine .two ⟨fun _ => .binary _ _ _ rfl, ?_, trivial, nofun, ?_⟩ hstep.every.grouped
    hbound.tidy.every.grouped
  · exact forall_mem_pair (Or.inr ⟨counter, bound, rfl, rfl⟩) (Or.inl hbound.simple)
  · exact forall_mem_pair hstep.held.2 hbound.tidy.held.2

section Parts

variable {env : Env} {b : Nat} {t : Ty} {n : Node}

/-- A place is tidy. -/
theorem Place.tidy (h : Place env t n) : n.Tidy := by
  cases h with
  | @var v _ _ => exact (Env.varNode_operand v).tidy
  | field _ _ hobject =>
      rcases hobject with ⟨-, rfl⟩ | ⟨-, hread⟩
      · exact .prop (Or.inl rfl) (.var _ _)
      · exact .prop (Or.inl hread.operand.1) hread.operand.2.tidy

variable (hcast : env.symbols.Castable) (hclosed : env.symbols.Closed)
  (hvisible : ∀ v ∈ env.scope.visible, v.type.Writable)

include hcast hclosed hvisible

/-- A first value of a variable is tidy. -/
theorem Initial.tidy (ht : t.Storable) (hw : t.Writable) (h : Initial env b t n) : n.Tidy := by
  cases h with
  | value hx => exact hx.tidy hcast hclosed hvisible hw
  | call _ hf _ hx => exact hx.tidy hcast hclosed hvisible hf
  | @cast k _ hk hx =>
      subst hk
      exact .cast ht.literate (hx.tidy hcast hclosed hvisible hw).asOperand

theorem Dumps.tidy (h : Dumps env b n) : n.Tidy := by
  have hline : (Node.name "__LINE__").Tidy := .name _
  cases h with
  | @var v _ _ => exact .call (forall_mem_pair hline (Env.varNode_operand v).tidy)
  | value _ hwithin hx =>
      exact .call (forall_mem_pair hline (hx.tidy hcast hclosed hvisible hwithin.writable))

end Parts

variable {g : Generator Unit} {vars : List ScopeVar} {s : Node}

/-- Every statement that is built is orderly at its site, if the counters of loops cannot
overflow. -/
theorem Stated.orderlyAt (hlimit : g.config.maxLoopIterations < Nat.pow 2 63)
    (hcast : g.symbols.Castable) (hclosed : g.symbols.Closed)
    (hresult : g.currentResult.Within g.symbols.classNames) (hg : Covers vars g)
    (h : Stated g vars s) : s.OrderlyAt := by
  have hvisible : ∀ v ∈ g.env.scope.visible, v.type.Writable :=
    fun v hv => (hg.within v (hg.visible v hv)).writable
  have htidy : ∀ {goal : Goal} {x : Node}, Derives g.env g.budget goal x → goal.Written g.env →
      x.Tidy := fun h => h.tidy hcast hclosed hvisible
  have hblock : ∀ body : List Node, ∀ x ∈ [Node.block body], x.op.assigns = false :=
    fun _ => List.forall_mem_singleton.2 rfl
  -- Statements inside are sites of their own, so what counts of a statement is its expressions and
  -- that what it holds may stand there.
  cases h with
  | declaration _ ht hwithin hinit =>
      exact .assign (.var _ _) (hinit.tidy hcast hclosed hvisible ht hwithin.writable)
  | counter _ => exact .assign (.var _ _) (.lit (by decide))
  | assignment hplace h =>
      have hw := (hplace.within hg).writable
      cases h with
      | compound hop hx =>
          exact .assignModify (Draw.isBinary_of_mem_compoundOps hop) hplace.tidy (htidy hx hw)
      | value _ hx => exact .assign hplace.tidy (htidy hx hw)
      | constant hx => exact .assign hplace.tidy (hx.constant.tidy (hx.writable hw))
  | dump h => exact .call (h.tidy hcast hclosed hvisible) (Or.inl h.call_op)
  | echo h =>
      have hend : (Node.textLit "\n").Tidy := .lit nofun
      exact .of_isStmt rfl (forall_mem_pair (htidy h trivial).held hend.held) nofun
  | voidCall hf _ h => exact .call (htidy h hf) h.call_op
  | block body => exact .of_isStmt rfl nofun (List.forall_mem_singleton.2 (Or.inl rfl))
  | ifThen body h =>
      exact .of_tidy rfl rfl (htidy h trivial) (List.forall_mem_singleton.2 (hblock body))
  | ifElse body other h =>
      exact .of_tidy rfl rfl (htidy h trivial) (forall_mem_pair (hblock body) (hblock other))
  | @whileLoop counter limit body _ _ hhigh =>
      refine .of_isStmt rfl (List.forall_mem_singleton.2 ⟨?_, nofun, fun _ => rfl, nofun⟩)
        (List.forall_mem_singleton.2 (Or.inr (hblock body)))
      refine Node.counterBelow_grouped ?_
      -- The bound of a condition is no negative number, as the limit fits into an integer.
      rw [toInt_limit hhigh hlimit]
      exact Int.natCast_nonneg limit
  | @doWhile counter limit body _ hlow hhigh =>
      refine .of_isStmt rfl (List.forall_mem_singleton.2 ⟨?_, nofun, fun _ => rfl, nofun⟩)
        (List.forall_mem_singleton.2 (Or.inr (hblock body)))
      refine Node.counterBelow_grouped ?_
      have hbound := toInt_limit_sub_one hlow hhigh hlimit
      omega
  | switch _ hwithin h hcases =>
      refine .of_tidy rfl rfl (htidy h hwithin.writable) fun body hbody => ?_
      obtain ⟨c, hc, rfl⟩ := List.mem_map.1 hbody
      refine List.forall_mem_singleton.2 ?_
      rcases hcases c hc with ⟨l, stmts, rfl, -⟩ | ⟨stmts, rfl⟩ <;> rfl
  | case body _ hl hw =>
      have hlabel : (Node.lit _).Tidy := hl.tidy (.leaf hw)
      exact .of_isStmt rfl (List.forall_mem_singleton.2 hlabel.held)
        (List.forall_mem_singleton.2 (Or.inl rfl))
  | defaultCase body => exact .of_isStmt rfl nofun (List.forall_mem_singleton.2 (Or.inl rfl))
  | breakJump | continueJump => exact .of_isStmt rfl nofun nofun
  | returns h =>
      cases h with
      | void _ => exact .of_isStmt rfl nofun nofun
      | value _ h => exact .of_tidy rfl rfl (htidy h hresult.writable) nofun

end TypedPhp
