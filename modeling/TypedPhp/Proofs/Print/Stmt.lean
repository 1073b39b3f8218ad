import TypedPhp.Print.Stmt
import TypedPhp.Proofs.Print.Expr
import TypedPhp.Proofs.Stmt.Formed

set_option autoImplicit false

/-!
# Generated statements are written

A statement is written if its expressions are and if its parts stand where the writer looks for
them: blocks under conditions and loops, cases and at most one default under a switch. The induction
follows the grammar of statements.
-/

namespace TypedPhp

namespace Print

/-- A statement is written at every depth. -/
def StmtSucceeds (n : Node) : Prop := ∀ indent, Succeeds (core indent n)

/-- The cases and the default of a switch are written at every depth. -/
def CaseSucceeds (n : Node) : Prop :=
  ∃ body, (∀ s ∈ body, StmtSucceeds s) ∧ (n = .ofArgs .defaultCase body ∨
    ∃ label, Succeeds (expr label) ∧ n = .ofArgs .case (label :: body))

theorem core_of_expr {n : Node} (hop : n.op.isStmt = false) (indent : Nat) :
    core indent n = expr n := by
  obtain ⟨op, args, payload, type⟩ := n
  cases op <;> first | rfl | cases hop

/-- An expression is written as a statement. -/
theorem StmtSucceeds.expr {n : Node} (hop : n.op.isStmt = false) (h : Succeeds (expr n)) :
    StmtSucceeds n := by
  intro indent
  rw [core_of_expr hop]
  exact h

/-- Statements that are written are written on lines of their own. -/
theorem lines_succeeds (indent : Nat) : ∀ {ns : List Node}, (∀ n ∈ ns, StmtSucceeds n) →
    Succeeds (lines indent ns)
  | [], _ => .pure _
  | n :: ns, h => by
      have hrest : Succeeds (lines indent ns) :=
        lines_succeeds indent fun m hm => h m (List.mem_cons_of_mem n hm)
      rw [lines]
      exact (h n List.mem_cons_self indent).bind fun _ => hrest.bind fun _ => .pure _

/-- Cases that are written are written one after another. -/
theorem cases_succeeds (indent : Nat) : ∀ {ns : List Node}, (∀ n ∈ ns, CaseSucceeds n) →
    Succeeds (cases indent false ns)
  | [], _ => .pure _
  | n :: ns, h => by
      have hrest : Succeeds (cases indent false ns) :=
        cases_succeeds indent fun m hm => h m (List.mem_cons_of_mem n hm)
      obtain ⟨body, hbody, rfl | ⟨label, hlabel, rfl⟩⟩ := h n List.mem_cons_self
      · have hlines := lines_succeeds (indent + 1) hbody
        exact hlines.bind fun _ => hrest.bind fun _ => .pure _
      · have hlines := lines_succeeds (indent + 1) hbody
        exact hlabel.bind fun _ => hlines.bind fun _ => hrest.bind fun _ => .pure _

theorem StmtSucceeds.block {body : List Node} (h : ∀ n ∈ body, StmtSucceeds n) :
    StmtSucceeds (.block body) :=
  fun indent => (lines_succeeds (indent + 1) h).bind fun _ => .pure _

section Branches

variable {cond body other : Node}

theorem StmtSucceeds.ifThen (hcond : Succeeds (Print.expr cond)) (hbody : StmtSucceeds body) :
    StmtSucceeds (.ifThen cond body) :=
  fun indent => hcond.bind fun _ => (hbody indent).bind fun _ => .pure _

theorem StmtSucceeds.ifElse (hcond : Succeeds (Print.expr cond)) (hbody : StmtSucceeds body)
    (hother : StmtSucceeds other) : StmtSucceeds (.ifElse cond body other) :=
  fun indent => hcond.bind fun _ => (hbody indent).bind fun _ =>
    (hother indent).bind fun _ => .pure _

theorem StmtSucceeds.whileLoop (hcond : Succeeds (Print.expr cond)) (hbody : StmtSucceeds body) :
    StmtSucceeds (.ofArgs .whileLoop [cond, body]) :=
  fun indent => hcond.bind fun _ => (hbody indent).bind fun _ => .pure _

theorem StmtSucceeds.doWhile (hcond : Succeeds (Print.expr cond)) (hbody : StmtSucceeds body) :
    StmtSucceeds (.ofArgs .doWhile [body, cond]) :=
  fun indent => (hbody indent).bind fun _ => hcond.bind fun _ => .pure _

/-- A switch is written. -/
theorem StmtSucceeds.switch {tag : Node} {ns : List Node} (htag : Succeeds (Print.expr tag))
    (hcases : ∀ n ∈ ns, CaseSucceeds n) : StmtSucceeds (.ofArgs .switch (tag :: ns)) := by
  intro indent
  have hbody : Succeeds (cases (indent + 1) true (tag :: ns)) := by
    obtain ⟨op, args, payload, type⟩ := tag
    exact cases_succeeds (indent + 1) hcases
  exact htag.bind fun _ => hbody.bind fun _ => .pure _

end Branches

end Print

/-! ## Effects -/

open Print (StmtSucceeds CaseSucceeds)

variable {g g' : Generator Unit} {ns : List Node} {one : Effect}

/-- Wherever a frame is open and the known parameters are castable, what the step builds is
written. -/
def Effect.Written (one : Effect) : Prop :=
  ∀ {g ns g'}, g.scope.counts ≠ [] → g.symbols.Castable → one g ns g' → ∀ n ∈ ns, StmtSucceeds n

theorem ConstantOf.written {t : Ty} {n : Node} (h : ConstantOf t n) :
    Print.Succeeds (Print.expr n) := by
  have hformed : n.Every (Node.Formed fun _ => True) := h.formed
  exact hformed.written

theorem Node.lit_written (l : Literal) : Print.Succeeds (Print.expr (.lit l)) := by
  have hformed : (Node.lit l).Every (Node.Formed fun _ => True) := .lit l
  exact hformed.written

/-- A declaration is written. -/
theorem declares_written : Effect.Written Declares := by
  intro g ns g' _ hg h n hn
  obtain ⟨hty, -, hinit, -⟩ := h
  obtain rfl := List.mem_singleton.1 hn
  apply StmtSucceeds.expr rfl
  refine Node.Every.written (?_ : Node.Every (Node.Formed fun _ => True) _)
  refine .two (.assign _ _) (.var (v := ⟨_, _⟩) trivial) ?_
  exact (hinit.formed hg hty).mono fun _ hm => hm.mono fun _ _ => trivial

section Lists

variable (hadv : one.Advancing) (hone : one.Written)

include hadv hone

/-- Repetitions are written. -/
theorem repeats_written {n : Nat} : Effect.Written (Repeats one n) := by
  intro g ns g' hopen hg h
  induction h with
  | none g => exact nofun
  | jump h _ => exact hone hopen hg h
  | next h _ _ ih =>
      have hfirst := hadv hopen h
      intro n hn
      rcases List.mem_append.1 hn with hn | hn
      · exact hone hopen hg h n hn
      · exact ih hfirst.isOpen (hfirst.sameFunction.castable hg) n hn

theorem blocks_written (hg : g.symbols.Castable) (h : Blocks one g ns g') :
    ∀ n ∈ ns, StmtSucceeds n := by
  obtain ⟨⟨h⟩, -⟩ := h
  refine repeats_written hadv hone (List.cons_ne_nil _ _) ?_ h
  exact hg

/-- The statements of a case are written. -/
theorem caseBody_written (hg : g.symbols.Castable) (h : CaseBody one g ns g') :
    ∀ n ∈ ns, StmtSucceeds n := by
  obtain ⟨⟨h⟩, -⟩ := h
  cases h with
  | plain _ h =>
      refine repeats_written hadv hone (List.cons_ne_nil _ _) ?_ h
      exact hg
  | broken _ h _ =>
      intro n hn
      rcases List.mem_append.1 hn with hn | hn
      · refine repeats_written hadv hone (List.cons_ne_nil _ _) ?_ h n hn
        exact hg
      · obtain rfl := List.mem_singleton.1 hn
        exact fun _ => .pure _

/-- The cases of a switch are written. -/
theorem cases_written {t : Ty} {n : Nat} {seen : List Literal} (hg : g.symbols.Castable)
    (h : Cases one t n seen g ns g') : ∀ c ∈ ns, CaseSucceeds c := by
  induction h with
  | none g seen => exact nofun
  | repetition _ _ _ ih => exact ih hg
  | @case _ _ _ _ _ body _ l _ _ hbody _ ih =>
      intro c hc
      rcases List.mem_cons.1 hc with rfl | hc
      · refine ⟨body, caseBody_written hadv hone hg hbody, Or.inr ⟨.lit l, ?_, rfl⟩⟩
        exact Node.lit_written l
      · exact ih ((caseBody_keeps hadv hbody).sameFunction.castable hg) c hc

/-- The default of a switch is written. -/
theorem defaults_written (hg : g.symbols.Castable) (h : Defaults one g ns g') :
    ∀ c ∈ ns, CaseSucceeds c := by
  cases h with
  | none => exact nofun
  | @body _ _ stmts h =>
      intro c hc
      obtain rfl := List.mem_singleton.1 hc
      exact ⟨stmts, caseBody_written hadv hone hg h, Or.inl rfl⟩

/-- The body of a loop is written. -/
theorem loopBody_written {body : List Node} (hg : g.symbols.Castable)
    (h : Targets (Blocks one) .loop { g with nextCounter := g.nextCounter + 1 } body g') :
    StmtSucceeds (.block body) := by
  obtain ⟨h⟩ := h
  refine .block (blocks_written hadv hone ?_ h)
  exact hg

end Lists

theorem Node.counterBelow_written (counter : String) (bound : Int64) :
    Print.Succeeds (Print.expr (.counterBelow counter bound)) :=
  Node.Every.written (counterBelow_formed (List.mem_singleton.2 rfl))

theorem Node.resetCounter_written (counter : String) : StmtSucceeds (.resetCounter counter) := by
  apply StmtSucceeds.expr rfl
  refine Node.Every.written (?_ : Node.Every (Node.Formed fun _ => True) _)
  exact .two (.assign _ _) (.var (v := ⟨counter, .int⟩) trivial) (.lit _)

/-- An assignment to a place is written. -/
theorem Assigns.written {env : Env} (hcast : env.symbols.Castable) {b : Nat} {t : Ty} {place : Node}
    (hplace : Place env t place) (h : Assigns env b t place ns) : ∀ n ∈ ns, StmtSucceeds n := by
  have hassign : ∀ x : Node, env.Formed x → ∀ n ∈ [Node.assign place x], StmtSucceeds n := by
    intro x hx n hn
    obtain rfl := List.mem_singleton.1 hn
    exact .expr rfl (Node.Every.written (.two (.assign _ _) hplace.formed hx))
  cases h with
  | compound hop hx =>
      intro n hn
      obtain rfl := List.mem_singleton.1 hn
      apply StmtSucceeds.expr rfl
      apply Node.Every.written
      refine .two (.assignModify _ _ ?_) hplace.formed (hx.formed hcast trivial)
      exact Draw.isBinary_of_mem_compoundOps hop
  | value _ hx => exact hassign _ (hx.formed hcast trivial)
  | constant hx => exact hassign _ hx.constant.formed
  | nothing _ => exact nofun

theorem Returns.written {env : Env} (hcast : env.symbols.Castable) {b : Nat} {result : Ty} {n : Node}
    (h : Returns env b result n) : StmtSucceeds n := by
  cases h with
  | void _ => exact fun _ => .pure _
  | value _ hx => exact fun _ => (hx.formed hcast trivial).written.bind fun _ => .pure _

/-- A statement is written if what is nested in it is. -/
theorem emits_written {inner : Option Effect}
    (hinner : ∀ one, inner = some one → one.Advancing ∧ one.Written) :
    Effect.Written (Emits inner) := by
  intro g ns g' hopen hg h
  -- Where the room is used up there is no rule that nests anything.
  cases h with
  | declaration h => exact declares_written hopen hg h
  | assignment hplace h => exact h.written hg hplace
  | dump h =>
      exact List.forall_mem_singleton.2 (.expr (by rw [h.call_op]; rfl) (h.formed hg).written)
  | @echo _ s h =>
      refine List.forall_mem_singleton.2 fun indent => ?_
      have hvalues : Print.Succeeds (Print.commaList (Print.exprEach [s, .textLit "\n"])) := by
        rw [Print.exprEach_eq_map]
        apply Print.commaList_succeeds
        intro x hx
        rcases List.mem_cons.1 hx with rfl | hx
        · exact (h.formed hg trivial).written
        · obtain rfl := List.mem_singleton.1 hx
          exact Node.lit_written _
      exact hvalues.bind fun _ => .pure _
  | voidCall hf _ h =>
      refine List.forall_mem_singleton.2 (.expr ?_ (h.formed hg (hg _ hf)).written)
      rcases h.call_op with hop | hop
      · rw [hop]
        rfl
      · rw [hop]
        rfl
  | block hsome h =>
      obtain ⟨hadv, hone⟩ := hinner _ hsome
      exact List.forall_mem_singleton.2 (.block (blocks_written hadv hone hg h))
  | ifThen hsome hcond h =>
      obtain ⟨hadv, hone⟩ := hinner _ hsome
      have hbody := StmtSucceeds.block (blocks_written hadv hone hg h)
      exact List.forall_mem_singleton.2 (.ifThen (hcond.formed hg trivial).written hbody)
  | ifElse hsome hcond h ho =>
      obtain ⟨hadv, hone⟩ := hinner _ hsome
      have hg₁ := (blocks_keeps hadv h).sameFunction.castable hg
      have hbody := StmtSucceeds.block (blocks_written hadv hone hg h)
      have hother := StmtSucceeds.block (blocks_written hadv hone hg₁ ho)
      exact List.forall_mem_singleton.2 (.ifElse (hcond.formed hg trivial).written hbody hother)
  | whileLoop hsome _ _ h =>
      obtain ⟨hadv, hone⟩ := hinner _ hsome
      intro n hn
      rcases List.mem_cons.1 hn with rfl | hn
      · exact Node.resetCounter_written _
      · obtain rfl := List.mem_singleton.1 hn
        exact .whileLoop (Node.counterBelow_written _ _) (loopBody_written hadv hone hg h)
  | doWhile hsome _ _ h =>
      obtain ⟨hadv, hone⟩ := hinner _ hsome
      intro n hn
      rcases List.mem_cons.1 hn with rfl | hn
      · exact Node.resetCounter_written _
      · obtain rfl := List.mem_singleton.1 hn
        exact .doWhile (Node.counterBelow_written _ _) (loopBody_written hadv hone hg h)
  | switch hsome _ _ htag _ _ hc hd =>
      obtain ⟨hadv, hone⟩ := hinner _ hsome
      have hg₁ := (cases_keeps hadv hc).sameFunction.castable hg
      refine List.forall_mem_singleton.2 (.switch (htag.formed hg trivial).written ?_)
      intro c hmem
      rcases List.mem_append.1 hmem with hmem | hmem
      · exact cases_written hadv hone hg hc c hmem
      · exact defaults_written hadv hone hg₁ hd c hmem
  | breakJump _ => exact List.forall_mem_singleton.2 fun _ => .pure _
  | continueJump _ => exact List.forall_mem_singleton.2 fun _ => .pure _
  | returnJump _ h => exact List.forall_mem_singleton.2 (h.written hg)

/-- Every statement is written, whatever its room. -/
theorem statement_written : ∀ room, Effect.Written (Statement room)
  | 0 => emits_written (by simp)
  | room + 1 => by
      apply emits_written
      intro one hsome
      cases hsome
      exact ⟨statement_advances room, statement_written room⟩

/-- Every statement of a function body is written. -/
theorem body_written : Effect.Written Body := by
  intro g ns g'' hopen hg h
  -- The known functions are the same before and after the declarations.
  have hstmts : ∀ {n m : Nat} {g' g'' : Generator Unit} {decls stmts : List Node},
      Repeats Declares n g decls g' → Repeats (Statement g'.room) m g' stmts g'' →
      (∀ n ∈ decls ++ stmts, StmtSucceeds n) ∧ g''.symbols.Castable := by
    intro n m g' g'' decls stmts hd hs
    have hadvance := repeats_advances declares_advances hopen hd
    have hg' := hadvance.sameFunction.castable hg
    have hadvance' := repeats_advances (statement_advances _) hadvance.isOpen hs
    refine ⟨?_, hadvance'.sameFunction.castable hg'⟩
    intro n hn
    rcases List.mem_append.1 hn with hn | hn
    · exact repeats_written declares_advances declares_written hopen hg hd n hn
    · exact repeats_written (statement_advances _) (statement_written _) hadvance.isOpen hg' hs n hn
  cases h with
  | void hd hs _ => exact (hstmts hd hs).1
  | value hd hs _ hlast =>
      obtain ⟨hwritten, hg''⟩ := hstmts hd hs
      intro n hn
      rcases List.mem_append.1 hn with hn | hn
      · exact hwritten n hn
      · obtain rfl := List.mem_singleton.1 hn
        exact hlast.written hg''

end TypedPhp
