import TypedPhp.Proofs.Stmt.Formed
import TypedPhp.Proofs.Syntax.Occurs

set_option autoImplicit false

/-!
# Jumps in what is built

A `break` leaves the innermost loop or switch around it, and a `continue` repeats the innermost one,
which must be a loop. The generator knows these from its stack of jump targets. The induction over
the grammar of statements shows that the stack is the one that a reader of the finished tree finds
and that a function returns what it promises (`Node.Controlled`), that no statement list goes on
after a jump (`JumpsLast`), and that there is no jump at the top of a function but the last return.
-/

namespace TypedPhp

/-! ## Jumps in a tree -/

/-- The target that a statement is for the jumps inside it. -/
def Op.target? : Op → Option JumpTarget
  | .whileLoop | .doWhile => some .loop
  | .switch => some .switch
  | _ => none

/-- The statement list that a node holds: that of a block, of a case after its label, or of a
default. -/
def Node.stmts? : Node → Option (List Node)
  | mk .block stmts _ _ => some stmts
  | mk .case args _ _ => some args.tail
  | mk .defaultCase stmts _ _ => some stmts
  | _ => none

/-- A statement list goes on after no jump. -/
def JumpsLast (ns : List Node) : Prop :=
  ∀ before n after, ns = before ++ n :: after → n.op.isJump = true → after = []

/-- A node may stand in a function with a result, inside the given jump targets, innermost first: if
it is a jump it can be taken, and if it holds a statement list, that goes on after no jump. -/
structure Node.Admitted (result : Ty) (targets : List JumpTarget) (n : Node) : Prop where
  breaks : n.op = .breakJump → targets ≠ []
  continues : n.op = .continueJump → targets.head? = some .loop
  voids : n.op = .returnVoid → result.isVoid = true
  values : n.op = .returnValue → result.isVoid = false
  last : ∀ l, n.stmts? = some l → JumpsLast l

/-- Every node of a tree may stand where it stands, in a function with a result and inside the
given jump targets. -/
inductive Node.Controlled (result : Ty) : List JumpTarget → Node → Prop where
  | of {targets : List JumpTarget} {n : Node} : n.Admitted result targets →
      (∀ x ∈ n.args, Controlled result (n.op.target?.toList ++ targets) x) →
      Controlled result targets n

/-- The statements of a function with a result have no jump but the return of a value at the end. -/
inductive Ends (result : Ty) : List Node → Prop where
  | void {stmts : List Node} : result.isVoid = true → (∀ n ∈ stmts, n.op.isJump = false) →
      Ends result stmts
  | value {stmts : List Node} {x : Node} : result.isVoid = false →
      (∀ n ∈ stmts, n.op.isJump = false) → Ends result (stmts ++ [.ret x])

section Lists

variable {ns ms : List Node} {n : Node}

theorem JumpsLast.of_none (h : ∀ m ∈ ns, m.op.isJump = false) : JumpsLast ns := by
  rintro before m after rfl hjump
  rw [h m (List.mem_append_right _ List.mem_cons_self)] at hjump
  cases hjump

/-- A list without jumps and one that goes on after no jump. -/
theorem JumpsLast.append (h : ∀ m ∈ ns, m.op.isJump = false) (h' : JumpsLast ms) :
    JumpsLast (ns ++ ms) := by
  intro before m after heq hjump
  rcases List.append_eq_append_iff.1 heq with ⟨as, -, hms⟩ | ⟨as, hns, hafter⟩
  · exact h' as m after hms hjump
  · cases as with
    | nil => exact h' [] m after hafter.symm hjump
    | cons a as =>
        obtain ⟨rfl, -⟩ := List.cons.inj hafter
        rw [h m (by rw [hns]; exact List.mem_append_right _ List.mem_cons_self)] at hjump
        cases hjump

theorem JumpsLast.single (n : Node) : JumpsLast [n] := by
  intro before m after heq _
  cases before with
  | nil => exact (List.cons.inj heq).2.symm
  | cons _ before => cases before <;> cases (List.cons.inj heq).2

/-- A list that goes on after no jump and does not end in one has none. -/
theorem JumpsLast.none_of_end (h : JumpsLast ns) (hend : Build.endsInJump ns = false) :
    ∀ m ∈ ns, m.op.isJump = false := by
  intro m hm
  by_contra hjump
  rw [Bool.not_eq_false] at hjump
  obtain ⟨before, after, rfl⟩ := List.append_of_mem hm
  obtain rfl := h before m after rfl hjump
  simp [Build.endsInJump, hjump] at hend

/-- What ends in the only return goes on after no jump. -/
theorem Ends.jumpsLast {result : Ty} (h : Ends result ns) : JumpsLast ns := by
  cases h with
  | void _ hnone => exact .of_none hnone
  | value _ hnone => exact .append hnone (.single _)

/-- Statements without jumps may stand before. -/
theorem Ends.after {result : Ty} (h : Ends result ns) (hjump : ∀ m ∈ ms, m.op.isJump = false) :
    Ends result (ms ++ ns) := by
  cases h with
  | void hvoid hnone => exact .void hvoid (List.forall_mem_append.2 ⟨hjump, hnone⟩)
  | value hvoid hnone =>
      rw [← List.append_assoc]
      exact .value hvoid (List.forall_mem_append.2 ⟨hjump, hnone⟩)

end Lists

/-- A tree in which no node is a statement. -/
def Node.StmtFree (n : Node) : Prop := n.Every fun m => m.op.isStmt = false

/-- A formed expression is no statement. -/
theorem Node.Formed.isStmt_eq {known : ScopeVar → Prop} {n : Node} (h : n.Formed known) :
    n.op.isStmt = false := by
  cases h with
  | literal l => cases l <;> rfl
  | unary x hop =>
      have hall : ∀ op ∈ Op.unary, op.isStmt = false := by decide
      exact hall _ hop
  | @binary op x y type hop =>
      change op.isStmt = false
      cases op <;> first | rfl | cases hop
  | _ => rfl

theorem Node.Every.stmtFree {known : ScopeVar → Prop} {n : Node} (h : n.Every (Formed known)) :
    n.StmtFree :=
  h.mono fun _ hm => hm.isStmt_eq

namespace Node.Controlled

variable {result : Ty} {targets : List JumpTarget} {n : Node} {op : Op} {args : List Node}

theorem admitted (h : n.Controlled result targets) : n.Admitted result targets := by
  cases h with
  | of hn _ => exact hn

/-- A node that is no jump may stand wherever its statement list goes on after no jump. -/
theorem admitted_of_isJump (hop : n.op.isJump = false)
    (hlist : ∀ l, n.stmts? = some l → JumpsLast l) : n.Admitted result targets := by
  have hne : ∀ op : Op, op.isJump = true → n.op ≠ op := by
    rintro op hjump rfl
    rw [hjump] at hop
    cases hop
  exact ⟨fun heq => absurd heq (hne _ rfl), fun heq => absurd heq (hne _ rfl),
    fun heq => absurd heq (hne _ rfl), fun heq => absurd heq (hne _ rfl), hlist⟩

theorem node (hop : n.op.isJump = false) (hlist : ∀ l, n.stmts? = some l → JumpsLast l)
    (hargs : ∀ x ∈ n.args, x.Controlled result (n.op.target?.toList ++ targets)) :
    n.Controlled result targets :=
  .of (admitted_of_isJump hop hlist) hargs

/-- What is no statement holds no statement list. -/
theorem stmts?_eq_none (h : n.op.isStmt = false) : n.stmts? = none := by
  unfold stmts?
  split
  · cases h
  · cases h
  · cases h
  · rfl

theorem isJump_eq_false (h : op.isStmt = false) : op.isJump = false := by
  cases op <;> first | rfl | cases h

/-- What holds no statement is controlled by any targets. -/
theorem of_stmtFree (h : n.StmtFree) : n.Controlled result targets := by
  induction n using inductionOn generalizing targets with
  | node op args payload type ih =>
      refine node (isJump_eq_false h.root) (fun l hl => ?_) fun x hx => ih x hx (h.child hx)
      rw [stmts?_eq_none h.root] at hl
      cases hl

/-- A simple statement that is no jump: it holds expressions only. -/
theorem simple (hop : n.op.isJump = false) (hholds : n.op.holdsStmts = false)
    (hargs : ∀ x ∈ n.args, x.StmtFree) : n.Controlled result targets := by
  refine node hop (fun l hl => ?_) fun x hx => of_stmtFree (hargs x hx)
  unfold stmts? at hl
  split at hl
  · cases hholds
  · cases hholds
  · cases hholds
  · cases hl

theorem block {body : List Node} (hbody : ∀ x ∈ body, x.Controlled result targets)
    (hlast : JumpsLast body) : (Node.block body).Controlled result targets :=
  node rfl (forall_of_some hlast) hbody

/-- The jumps in controlled trees can be taken in what stands above them. -/
theorem occurs {roots above : List Node} (hroots : ∀ x ∈ roots, x.Controlled result targets)
    (h : Occurs roots above n) :
    n.Controlled result (above.filterMap (·.op.target?) ++ targets) := by
  induction h with
  | root hn => exact hroots _ hn
  | @child above n x _ hx ih =>
      obtain ⟨-, hargs⟩ := ih
      have harg := hargs x hx
      rw [List.filterMap_cons]
      cases htarget : n.op.target? with
      | none =>
          rw [htarget] at harg
          exact harg
      | some target =>
          rw [htarget] at harg
          exact harg

end Node.Controlled

/-! ## Jumps in what a step builds -/

/-- What is built in a state is controlled by its jump targets, goes on after no jump, and has
none at the top of a function. -/
structure Flows (g : Generator Unit) (ns : List Node) : Prop where
  controlled : ∀ n ∈ ns, n.Controlled g.currentResult g.jumps
  jumpsLast : JumpsLast ns
  nested : ∀ n ∈ ns, n.op.isJump = true → g.jumps ≠ [] ∨ 0 < g.stmtDepth

namespace Flows

variable {g h : Generator Unit} {ns ms : List Node} {n : Node}

theorem nil : Flows g [] := ⟨nofun, .of_none nofun, nofun⟩

theorem single (hn : n.Controlled g.currentResult g.jumps) (hop : n.op.isJump = false) :
    Flows g [n] := by
  refine ⟨List.forall_mem_singleton.2 hn, .single n, fun m hm hjump => ?_⟩
  obtain rfl := List.mem_singleton.1 hm
  rw [hop] at hjump
  cases hjump

theorem jump (hn : n.Controlled g.currentResult g.jumps)
    (hnested : g.jumps ≠ [] ∨ 0 < g.stmtDepth) : Flows g [n] :=
  ⟨List.forall_mem_singleton.2 hn, .single n, fun _ _ _ => hnested⟩

theorem expr (hn : n.StmtFree) : Flows g [n] :=
  single (.of_stmtFree hn) (Node.Controlled.isJump_eq_false (hn _ n.self_mem_subterms))

theorem append (h : Flows g ns) (hjump : ∀ n ∈ ns, n.op.isJump = false) (h' : Flows g ms) :
    Flows g (ns ++ ms) where
  controlled := fun n hn => (List.mem_append.1 hn).elim (h.controlled n) (h'.controlled n)
  jumpsLast := .append hjump h'.jumpsLast
  nested := fun n hn => (List.mem_append.1 hn).elim (h.nested n) (h'.nested n)

theorem before (hadv : Advances g h) (hflows : Flows h ns) : Flows g ns := by
  obtain ⟨hcontrolled, hlast, hnested⟩ := hflows
  rw [hadv.same] at hcontrolled hnested
  exact ⟨hcontrolled, hlast, hnested⟩

end Flows

/-- Wherever a frame is open and the known functions can be called, what the step builds flows. -/
def Effect.Flowing (one : Effect) : Prop :=
  ∀ {g ns g'}, one g ns g' → g.scope.counts ≠ [] → g.symbols.Castable → Flows g ns

variable {g g' : Generator Unit} {ns : List Node} {n : Node}

theorem declares_flows : Effect.Flowing Declares := by
  intro g ns g' h _ hcast
  obtain ⟨hty, -, hinit, -⟩ := h
  exact .expr (.two rfl (.leaf rfl) (hinit.formed hcast hty).stmtFree)

section Flowing

variable {one : Effect} (hadv : one.Advancing) (hone : one.Flowing)

include hadv hone

/-- Repetitions flow: they stop at the first jump. -/
theorem repeats_flows {k : Nat} : Effect.Flowing (Repeats one k) := by
  intro g ns g' h hopen hcast
  induction h with
  | none g => exact .nil
  | jump h _ => exact hone h hopen hcast
  | next h hend _ ih =>
      have hfirst := hadv hopen h
      have hflows := hone h hopen hcast
      have hrest := ih hfirst.isOpen (hfirst.sameFunction.castable hcast)
      exact hflows.append (hflows.jumpsLast.none_of_end hend) (hrest.before hfirst)

/-- The statements of a block are those of a block in the same jump targets. -/
theorem blocks_flows (hcast : g.symbols.Castable) (h : Blocks one g ns g') :
    (Node.block ns).Controlled g.currentResult g.jumps := by
  obtain ⟨⟨h⟩, -⟩ := h
  have hflows := repeats_flows hadv hone h (List.cons_ne_nil _ _) hcast
  exact .block hflows.controlled hflows.jumpsLast

/-- The statements of a case stand in the switch. -/
theorem caseBody_flows (hcast : g.symbols.Castable) (h : CaseBody one g ns g') :
    (∀ n ∈ ns, n.Controlled g.currentResult (.switch :: g.jumps)) ∧ JumpsLast ns := by
  obtain ⟨⟨h⟩, -⟩ := h
  cases h with
  | plain _ h =>
      have hflows := repeats_flows hadv hone h (List.cons_ne_nil _ _) hcast
      exact ⟨hflows.controlled, hflows.jumpsLast⟩
  | broken _ h hend =>
      have hflows := repeats_flows hadv hone h (List.cons_ne_nil _ _) hcast
      refine ⟨fun n hn => ?_, .append (hflows.jumpsLast.none_of_end hend) (.single _)⟩
      rcases List.mem_append.1 hn with hn | hn
      · exact hflows.controlled n hn
      · obtain rfl := List.mem_singleton.1 hn
        exact .of ⟨fun _ => List.cons_ne_nil _ _, nofun, nofun, nofun, nofun⟩ nofun

/-- The cases of a switch stand in it. -/
theorem cases_flows {t : Ty} {k : Nat} {seen : List Literal} (hcast : g.symbols.Castable)
    (h : Cases one t k seen g ns g') :
    ∀ c ∈ ns, c.Controlled g.currentResult (.switch :: g.jumps) := by
  induction h with
  | none g seen => exact nofun
  | repetition _ _ _ ih => exact ih hcast
  | @case _ _ g g' g'' body rest l _ _ hbody _ ih =>
      have hkeep := caseBody_keeps hadv hbody
      obtain ⟨hcontrolled, hlast⟩ := caseBody_flows hadv hone hcast hbody
      have hrest := ih (hkeep.sameFunction.castable hcast)
      rw [hkeep.same] at hrest
      refine List.forall_mem_cons.2 ⟨.node rfl (forall_of_some hlast) ?_, hrest⟩
      refine List.forall_mem_cons.2 ⟨.of_stmtFree ?_, hcontrolled⟩
      exact .leaf (by cases l <;> rfl)

/-- The default of a switch stands in it. -/
theorem defaults_flows (hcast : g.symbols.Castable) (h : Defaults one g ns g') :
    ∀ c ∈ ns, c.Controlled g.currentResult (.switch :: g.jumps) := by
  cases h with
  | none => exact nofun
  | body h =>
      obtain ⟨hcontrolled, hlast⟩ := caseBody_flows hadv hone hcast h
      exact List.forall_mem_singleton.2 (.node rfl (forall_of_some hlast) hcontrolled)

/-- The block of a loop stands in it. -/
theorem loop_flows (hcast : g.symbols.Castable)
    (h : Targets (Blocks one) .loop { g with nextCounter := g.nextCounter + 1 } ns g') :
    (Node.block ns).Controlled g.currentResult (.loop :: g.jumps) := by
  obtain ⟨h⟩ := h
  have hcast' : SymbolTable.Castable { g with
    nextCounter := g.nextCounter + 1
    jumps := .loop :: g.jumps }.symbols := hcast
  exact blocks_flows hadv hone hcast' h

end Flowing

/-! ## Statements -/

/-- An assignment to a place flows. -/
theorem assigns_flows {t : Ty} {place : Node} (hcast : g.symbols.Castable)
    (hplace : Place g.env t place) (h : Assigns g.env g.budget t place ns) : Flows g ns := by
  cases h with
  | compound _ hx =>
      exact .expr (.two rfl hplace.formed.stmtFree (hx.formed hcast trivial).stmtFree)
  | value _ hx => exact .expr (.two rfl hplace.formed.stmtFree (hx.formed hcast trivial).stmtFree)
  | constant hx =>
      have hformed : g.env.Formed _ := hx.constant.formed
      exact .expr (.two rfl hplace.formed.stmtFree hformed.stmtFree)
  | nothing _ => exact .nil

/-- A return is controlled by any targets in a function with its result. -/
theorem Returns.controlled {result : Ty} {targets : List JumpTarget} (hcast : g.symbols.Castable)
    (h : Returns g.env g.budget result n) : n.Controlled result targets := by
  cases h with
  | void hvoid => exact .of ⟨nofun, nofun, fun _ => hvoid, nofun, nofun⟩ nofun
  | value hvoid hx =>
      refine .of ⟨nofun, nofun, nofun, fun _ => hvoid, nofun⟩ (List.forall_mem_singleton.2 ?_)
      exact .of_stmtFree (hx.formed hcast trivial).stmtFree

theorem counterBelow_stmtFree (counter : String) (bound : Int64) :
    (Node.counterBelow counter bound).StmtFree :=
  .two rfl (.one rfl (.leaf rfl)) (.leaf rfl)

theorem Flows.loop {counter : String} (hn : n.Controlled g.currentResult g.jumps)
    (hop : n.op.isJump = false) : Flows g [.resetCounter counter, n] := by
  have hreset : Flows g [.resetCounter counter] := .expr (.two rfl (.leaf rfl) (.leaf rfl))
  exact hreset.append (List.forall_mem_singleton.2 rfl) (.single hn hop)

/-- A statement flows if what is nested in it does. -/
theorem emits_flows {inner : Option Effect}
    (hinner : ∀ one, inner = some one → one.Advancing ∧ one.Flowing) :
    Effect.Flowing (Emits inner) := by
  intro g ns g' h hopen hcast
  cases h with
  | declaration h => exact declares_flows h hopen hcast
  | assignment hplace h => exact assigns_flows hcast hplace h
  | dump h => exact .expr (h.formed hcast).stmtFree
  | echo h =>
      refine .single (.simple rfl rfl fun x hx => ?_) rfl
      rcases List.mem_cons.1 hx with rfl | hx
      · exact (h.formed hcast trivial).stmtFree
      · obtain rfl := List.mem_singleton.1 hx
        exact .leaf rfl
  | voidCall hf _ h => exact .expr (h.formed hcast (hcast _ hf)).stmtFree
  | block hsome h =>
      obtain ⟨hadv, hone⟩ := hinner _ hsome
      exact .single (blocks_flows hadv hone hcast h) rfl
  | ifThen hsome hcond h =>
      obtain ⟨hadv, hone⟩ := hinner _ hsome
      refine .single (.node rfl nofun ?_) rfl
      refine List.forall_mem_cons.2 ⟨.of_stmtFree (hcond.formed hcast trivial).stmtFree, ?_⟩
      exact List.forall_mem_singleton.2 (blocks_flows hadv hone hcast h)
  | @ifElse one _ g₁ _ cond body other hsome hcond h ho =>
      obtain ⟨hadv, hone⟩ := hinner _ hsome
      -- The second block is built in the state that the first leaves, which has the same targets.
      have hkeep := blocks_keeps hadv h
      have hother := blocks_flows hadv hone (hkeep.sameFunction.castable hcast) ho
      rw [hkeep.same] at hother
      refine .single (.node rfl nofun ?_) rfl
      refine List.forall_mem_cons.2 ⟨.of_stmtFree (hcond.formed hcast trivial).stmtFree, ?_⟩
      refine List.forall_mem_cons.2 ⟨blocks_flows hadv hone hcast h, ?_⟩
      exact List.forall_mem_singleton.2 hother
  | whileLoop hsome _ _ h =>
      obtain ⟨hadv, hone⟩ := hinner _ hsome
      refine .loop (.node rfl nofun ?_) rfl
      refine List.forall_mem_cons.2 ⟨.of_stmtFree (counterBelow_stmtFree _ _), ?_⟩
      exact List.forall_mem_singleton.2 (loop_flows hadv hone hcast h)
  | doWhile hsome _ _ h =>
      obtain ⟨hadv, hone⟩ := hinner _ hsome
      refine .loop (.node rfl nofun ?_) rfl
      refine List.forall_mem_cons.2 ⟨loop_flows hadv hone hcast h, ?_⟩
      exact List.forall_mem_singleton.2 (.of_stmtFree (counterBelow_stmtFree _ _))
  | @switch one _ g₁ _ t tag k cases default hsome _ _ htag _ _ hc hd =>
      obtain ⟨hadv, hone⟩ := hinner _ hsome
      have hkeep := cases_keeps hadv hc
      have hdefault := defaults_flows hadv hone (hkeep.sameFunction.castable hcast) hd
      rw [hkeep.same] at hdefault
      refine .single (.node rfl nofun ?_) rfl
      refine List.forall_mem_cons.2 ⟨.of_stmtFree (htag.formed hcast trivial).stmtFree, ?_⟩
      exact List.forall_mem_append.2 ⟨cases_flows hadv hone hcast hc, hdefault⟩
  | breakJump hjumps =>
      exact .jump (.of ⟨fun _ => hjumps, nofun, nofun, nofun, nofun⟩ nofun) (Or.inl hjumps)
  | continueJump hjumps =>
      -- Where a loop can be continued, there is something to leave.
      refine .jump (.of ⟨nofun, fun _ => hjumps, nofun, nofun, nofun⟩ nofun) (Or.inl ?_)
      intro hnil
      rw [hnil] at hjumps
      cases hjumps
  | returnJump hdepth h => exact .jump (h.controlled hcast) (Or.inr hdepth)

/-- Every statement flows, whatever its room. -/
theorem statement_flows : ∀ room, Effect.Flowing (Statement room)
  | 0 => emits_flows (by simp)
  | room + 1 => by
      apply emits_flows
      intro one hsome
      cases hsome
      exact ⟨statement_advances room, statement_flows room⟩

/-- The body of a function that is built where there is no jump target and no nesting is
controlled and ends in its only return at the top, if it returns a value. -/
theorem body_flows (hopen : g.scope.counts ≠ []) (hcast : g.symbols.Castable)
    (hjumps : g.jumps = []) (hdepth : g.stmtDepth = 0) (h : Body g ns g') :
    (∀ n ∈ ns, n.Controlled g.currentResult []) ∧ Ends g.currentResult ns := by
  have hstmts : ∀ {k m : Nat} {g₁ g₂ : Generator Unit} {decls stmts : List Node},
      Repeats Declares k g decls g₁ → Repeats (Statement g₁.room) m g₁ stmts g₂ →
      (∀ n ∈ decls ++ stmts, n.Controlled g.currentResult []) ∧
        (∀ n ∈ decls ++ stmts, n.op.isJump = false) ∧ Advances g g₂ := by
    intro k m g₁ g₂ decls stmts hd hs
    have hadv := repeats_advances declares_advances hopen hd
    have hadv' := repeats_advances (statement_advances _) hadv.isOpen hs
    have hcast' := hadv.sameFunction.castable hcast
    have hdecls := repeats_flows declares_advances declares_flows hd hopen hcast
    have hrest := (repeats_flows (statement_advances _) (statement_flows _) hs hadv.isOpen
      hcast').before hadv
    -- There is no target to jump to and no block to return from.
    have hnone : ∀ {ms : List Node}, Flows g ms → ∀ n ∈ ms, n.op.isJump = false := by
      intro ms hms n hn
      by_contra hjump
      rcases hms.nested n hn (Bool.not_eq_false _ ▸ hjump) with hne | hpos
      · exact hne hjumps
      · omega
    have hall := hdecls.append (hnone hdecls) hrest
    rw [← hjumps]
    exact ⟨hall.controlled, hnone hall, hadv.trans hadv'⟩
  cases h with
  | void hd hs hvoid =>
      obtain ⟨hcontrolled, hnone, hadv⟩ := hstmts hd hs
      rw [hadv.sameFunction.currentResult] at hvoid
      exact ⟨hcontrolled, .void hvoid hnone⟩
  | value hd hs hvoid hlast =>
      obtain ⟨hcontrolled, hnone, hadv⟩ := hstmts hd hs
      rw [hadv.sameFunction.currentResult] at hvoid hlast
      have hreturn : Node.Controlled _ [] _ :=
        hlast.controlled (hadv.sameFunction.castable hcast)
      refine ⟨List.forall_mem_append.2 ⟨hcontrolled, List.forall_mem_singleton.2 hreturn⟩, ?_⟩
      cases hlast with
      | void hvoid' =>
          rw [hvoid] at hvoid'
          cases hvoid'
      | value _ _ => exact .value hvoid hnone

end TypedPhp
