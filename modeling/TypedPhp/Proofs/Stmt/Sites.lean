import TypedPhp.Proofs.Names
import TypedPhp.Proofs.Stmt.Frames
import TypedPhp.Proofs.Syntax.Sites

set_option autoImplicit false

/-!
# Statements at their sites

Reading a generated list comes to every statement with an environment that covers the state in which
it was built: the environment holds what was in scope, and no name that is still to be taken. The
induction follows the grammar of statements. Its result, `statement_placed`, describes every site
by `Stated`, a list of the statements that the generator builds with what it knows of their parts;
what is claimed of all statements of a program is read off this list.
-/

namespace TypedPhp

variable {g g' : Generator Unit} {vars : List ScopeVar}

/-! ## Environments of states -/

/-- An environment holds what is in scope in a state, each name once, and none that is still to be
taken, and its types name known classes. The current object is in no scope, and all names are names
of variables. -/
structure Covers (vars : List ScopeVar) (g : Generator Unit) : Prop where
  scope : ∀ v ∈ g.scope.vars, v ∈ vars
  unbound : ∀ v ∈ g.scope.vars, v.name ≠ "this"
  this : ∀ c, g.currentClass = some c → ⟨"this", .object c⟩ ∈ vars
  distinct : (vars.map (·.name)).Nodup
  freshVar : ∀ i, g.nextVar ≤ i → "v" ++ toString i ∉ vars.map (·.name)
  freshCounter : ∀ i, g.nextCounter ≤ i → "_c" ++ toString i ∉ vars.map (·.name)
  within : ∀ v ∈ vars, v.type.Within g.symbols.classNames
  named : ∀ v ∈ vars, VariableName v.name

/-- Two states of the building of one function. -/
structure SameFunction (g h : Generator Unit) : Prop where
  config : h.config = g.config
  symbols : h.symbols = g.symbols
  currentClass : h.currentClass = g.currentClass
  currentResult : h.currentResult = g.currentResult

namespace SameFunction

theorem refl (g : Generator Unit) : SameFunction g g := ⟨rfl, rfl, rfl, rfl⟩

theorem trans {h : Generator Unit} (hg : SameFunction g g') (hh : SameFunction g' h) :
    SameFunction g h :=
  ⟨hh.config.trans hg.config, hh.symbols.trans hg.symbols, hh.currentClass.trans hg.currentClass,
    hh.currentResult.trans hg.currentResult⟩

end SameFunction

theorem Advances.sameFunction (h : Advances g g') : SameFunction g g' := by
  constructor <;> rw [h.same]

theorem Keeps.sameFunction (h : Keeps g g') : SameFunction g g' := by
  constructor <;> rw [h.same]

namespace Covers

theorem visible (h : Covers vars g) : ∀ v ∈ g.env.scope.visible, v ∈ vars :=
  fun v hv => h.scope v (Scope.mem_vars_of_mem_visible hv)

/-- The environment covers a state with the same scope and later counters. -/
theorem keeps (h : Covers vars g) (hk : Keeps g g') : Covers vars g' where
  scope := by
    rw [hk.scope_eq]
    exact h.scope
  unbound := by
    rw [hk.scope_eq]
    exact h.unbound
  this := by
    rw [hk.sameFunction.currentClass]
    exact h.this
  distinct := h.distinct
  freshVar := fun i hi => h.freshVar i (Nat.le_trans hk.vars hi)
  freshCounter := fun i hi => h.freshCounter i (Nat.le_trans hk.counters hi)
  within := by
    rw [hk.sameFunction.symbols]
    exact h.within
  named := h.named

/-- The environment with a fresh variable covers the state with that variable in scope. -/
theorem declare (h : Covers vars g) {t : Ty} (ht : t.Within g.symbols.classNames) {s : Scope}
    (hs : ∀ v ∈ s.vars, v = ⟨"v" ++ toString g.nextVar, t⟩ ∨ v ∈ g.scope.vars) :
    Covers (⟨"v" ++ toString g.nextVar, t⟩ :: vars)
      { g with nextVar := g.nextVar + 1, scope := s } where
  scope := by
    intro v hv
    rcases hs v hv with rfl | hv
    · exact List.mem_cons_self
    · exact List.mem_cons_of_mem _ (h.scope v hv)
  unbound := by
    intro v hv
    rcases hs v hv with rfl | hv
    · exact var_ne_this _
    · exact h.unbound v hv
  this := fun c hc => List.mem_cons_of_mem _ (h.this c hc)
  distinct := List.nodup_cons.2 ⟨h.freshVar g.nextVar (Nat.le_refl _), h.distinct⟩
  freshVar := by
    intro i hi hmem
    rcases List.mem_cons.1 hmem with heq | hmem
    · rw [numbered_inj heq] at hi
      exact absurd hi (Nat.not_succ_le_self _)
    · exact h.freshVar i (Nat.le_of_succ_le hi) hmem
  freshCounter := by
    intro i hi hmem
    rcases List.mem_cons.1 hmem with heq | hmem
    · exact var_ne_counter _ _ heq.symm
    · exact h.freshCounter i hi hmem
  within := by
    intro v hv
    rcases List.mem_cons.1 hv with rfl | hv
    · exact ht
    · exact h.within v hv
  named := List.forall_mem_cons.2 ⟨.fresh _, h.named⟩

/-- The environment with the next loop counter covers the state in which it is taken. -/
theorem stepCounter (h : Covers vars g) :
    Covers (⟨g.counterName, .int⟩ :: vars) { g with nextCounter := g.nextCounter + 1 } where
  scope := fun v hv => List.mem_cons_of_mem _ (h.scope v hv)
  unbound := h.unbound
  this := fun c hc => List.mem_cons_of_mem _ (h.this c hc)
  distinct := List.nodup_cons.2 ⟨h.freshCounter g.nextCounter (Nat.le_refl _), h.distinct⟩
  freshVar := by
    intro i hi hmem
    rcases List.mem_cons.1 hmem with heq | hmem
    · exact var_ne_counter _ _ heq
    · exact h.freshVar i hi hmem
  freshCounter := by
    intro i hi hmem
    rcases List.mem_cons.1 hmem with heq | hmem
    · rw [numbered_inj heq] at hi
      exact absurd hi (Nat.not_succ_le_self _)
    · exact h.freshCounter i (Nat.le_of_succ_le hi) hmem
  within := by
    intro v hv
    rcases List.mem_cons.1 hv with rfl | hv
    · exact .of_nil rfl (.scalar _)
    · exact h.within v hv
  named := List.forall_mem_cons.2 ⟨.counter _, h.named⟩

end Covers

/-- The type of a place names known classes. -/
theorem Place.within {t : Ty} {place : Node} (hg : Covers vars g) (h : Place g.env t place) :
    t.Within g.symbols.classNames := by
  cases h with
  | var hv hty =>
      rw [← hty]
      exact hg.within _ (hg.visible _ hv)
  | field ht _ _ => exact ht.within

/-! ## Statements -/

/-- The statements that are built, in a state that an environment covers. -/
inductive Stated (g : Generator Unit) (vars : List ScopeVar) : Node → Prop where
  | declaration {i : Nat} {t : Ty} {x : Node} : "v" ++ toString i ∉ vars.map (·.name) →
      t.Storable → t.Within g.symbols.classNames → Initial g.env g.budget t x →
      Stated g vars (.assign (.var ("v" ++ toString i) t) x)
  | counter {i : Nat} : "_c" ++ toString i ∉ vars.map (·.name) →
      Stated g vars (.resetCounter ("_c" ++ toString i))
  | assignment {t : Ty} {place n : Node} : Place g.env t place →
      Assigns g.env g.budget t place [n] → Stated g vars n
  | dump {n : Node} : Dumps g.env g.budget n → Stated g vars n
  | echo {s : Node} : Derives g.env g.budget (.category (.value .string)) s →
      Stated g vars (.ofArgs .echo [s, .textLit "\n"])
  | voidCall {f : FuncType} {n : Node} : f ∈ g.symbols.funcs → f.result = .void →
      Derives g.env g.budget (.call f) n → Stated g vars n
  | block (body : List Node) : Stated g vars (.block body)
  | ifThen {cond : Node} (body : List Node) : Derives g.env g.budget (.category .cond) cond →
      Stated g vars (.ifThen cond (.block body))
  | ifElse {cond : Node} (body other : List Node) :
      Derives g.env g.budget (.category .cond) cond →
      Stated g vars (.ifElse cond (.block body) (.block other))
  | whileLoop {counter : String} {limit : Nat} (body : List Node) : ⟨counter, .int⟩ ∈ vars →
      1 ≤ limit → limit ≤ g.config.maxLoopIterations →
      Stated g vars
        (.ofArgs .whileLoop [.counterBelow counter (.ofNat limit), .block body])
  | doWhile {counter : String} {limit : Nat} (body : List Node) : ⟨counter, .int⟩ ∈ vars →
      1 ≤ limit → limit ≤ g.config.maxLoopIterations →
      Stated g vars
        (.ofArgs .doWhile [.block body, .counterBelow counter (.ofNat limit - 1)])
  | switch {t : Ty} {tag : Node} {cases : List Node} : TagType t →
      t.Within g.symbols.classNames → Derives g.env g.budget (.value t) tag →
      (∀ c ∈ cases, (∃ l body, c = .ofArgs .case (.lit l :: body) ∧ ConstantOf t (.lit l)) ∨
        ∃ body, c = .ofArgs .defaultCase body) →
      Stated g vars (.ofArgs .switch (tag :: cases))
  | case {t : Ty} {l : Literal} (body : List Node) : TagType t → ConstantOf t (.lit l) →
      (Node.lit l).Writable → Stated g vars (.ofArgs .case (.lit l :: body))
  | defaultCase (body : List Node) : Stated g vars (.ofArgs .defaultCase body)
  | breakJump : Stated g vars (.ofArgs .breakJump [])
  | continueJump : Stated g vars (.ofArgs .continueJump [])
  | returns {n : Node} : Returns g.env g.budget g.currentResult n → Stated g vars n

/-- A statement at a site is one that is built in some state of the function that the environment
covers. -/
def StatedIn (g : Generator Unit) (vars : List ScopeVar) (n : Node) : Prop :=
  ∃ h, SameFunction g h ∧ Covers vars h ∧ Stated h vars n

theorem Stated.now {n : Node} (h : Stated g vars n) (hg : Covers vars g) : StatedIn g vars n :=
  ⟨g, .refl g, hg, h⟩

/-- What is stated in a later state of a function is stated in an earlier one. -/
theorem StatedIn.earlier {n : Node} (hg : SameFunction g g') (h : StatedIn g' vars n) :
    StatedIn g vars n := by
  obtain ⟨h', hsame, hcovers, hstated⟩ := h
  exact ⟨h', hg.trans hsame, hcovers, hstated⟩

/-! ## Shapes -/

section Shapes

variable {env : Env} {b : Nat} {n : Node}

/-- A derived call is a call or a method call. -/
theorem Derives.call_op {f : FuncType} (h : Derives env b (.call f) n) :
    n.op = .call ∨ n.op = .methodCall := by
  cases h with
  | functionCall _ _ _ _ => exact Or.inl rfl
  | methodCall _ _ _ _ _ => exact Or.inr rfl

theorem Dumps.call_op (h : Dumps env b n) : n.op = .call := by
  cases h <;> rfl

theorem Returns.return_op {result : Ty} (h : Returns env b result n) :
    n.op = .returnVoid ∨ n.op = .returnValue := by
  cases h with
  | void _ => exact Or.inl rfl
  | value _ _ => exact Or.inr rfl

/-- The operators of statements that hold other statements. -/
def Op.holdsStmts : Op → Bool
  | .block | .ifThen | .ifElse | .whileLoop | .doWhile | .switch | .case | .defaultCase => true
  | _ => false

theorem Node.bodies_of_op (h : n.op.holdsStmts = false) : n.bodies = [] := by
  unfold bodies
  split <;> first | rfl | cases h

end Shapes

/-! ## Placement of the steps of the grammar -/

/-- Wherever a frame is open and an environment covers the state, the sites of what the step builds
are those of the function, and the environment after it covers the state after it. -/
def Effect.Placed (one : Effect) : Prop :=
  ∀ {g ns g' vars}, g.scope.counts ≠ [] → Covers vars g → one g ns g' →
    Sited (StatedIn g) vars ns ∧ Covers (introduceAll vars ns) g'

/-- The sites of what the step builds in a list of its own are those of the function. -/
def Effect.PlacedInside (one : Effect) : Prop :=
  ∀ {g ns g' vars}, g.scope.counts ≠ [] → Covers vars g → one g ns g' →
    Sited (StatedIn g) vars ns

theorem Sited.simple {n : Node} {P : List ScopeVar → Node → Prop}
    (hop : n.op.holdsStmts = false) (h : P vars n) : Sited P vars [n] := by
  apply Sited.single h
  rw [Node.bodies_of_op hop]
  intro body hbody
  cases hbody

/-- Every statement of a list that introduces nothing and holds no other is read in the environment
of the list. -/
theorem Sited.of_simple {P : List ScopeVar → Node → Prop} :
    ∀ {ns : List Node}, (∀ n ∈ ns, P vars n ∧ n.op.holdsStmts = false ∧ introduce vars n = vars) →
      Sited P vars ns
  | [], _ => .nil
  | n :: ns, h => by
      obtain ⟨hP, hop, hkeep⟩ := h n List.mem_cons_self
      apply Sited.cons hP
      · rw [Node.bodies_of_op hop]
        exact nofun
      · rw [hkeep]
        exact Sited.of_simple fun m hm => h m (List.mem_cons_of_mem n hm)

/-- A declaration is placed. -/
theorem declares_placed : Effect.Placed Declares := by
  intro g ns g' vars hopen hg h
  obtain ⟨hty, hwithin, hinit, hpush⟩ := h
  rename_i t x s
  obtain ⟨s', hpush', hvars, -⟩ := Scope.push_grown hopen ("v" ++ toString g.nextVar) t
  rw [hpush] at hpush'
  cases hpush'
  -- The environment gets the name after the statement, as the scope does.
  have hfresh := hg.freshVar g.nextVar (Nat.le_refl _)
  constructor
  · exact Sited.simple rfl ((Stated.declaration hfresh hty hwithin hinit).now hg)
  · rw [introduceAll, List.foldl_cons, List.foldl_nil, introduce_fresh hfresh]
    apply hg.declare hwithin
    intro v hv
    rw [hvars] at hv
    exact List.mem_cons.1 hv

section Placed

variable {one : Effect} (hadv : one.Advancing) (hone : one.Placed)

include hadv hone

/-- Repetitions are placed. -/
theorem repeats_placed {n : Nat} : Effect.Placed (Repeats one n) := by
  intro g ns g' vars hopen hg h
  -- The environment of a repetition is that after the ones before it.
  induction h generalizing vars with
  | none g => exact ⟨.nil, hg⟩
  | jump h _ => exact hone hopen hg h
  | next h _ _ ih =>
      have hfirst := hadv hopen h
      obtain ⟨hsites, hg'⟩ := hone hopen hg h
      obtain ⟨hrest, hg''⟩ := ih hfirst.isOpen hg'
      constructor
      · apply hsites.append
        exact hrest.mono fun _ _ hs => hs.earlier hfirst.sameFunction
      · rw [introduceAll_append]
        exact hg''

/-- The statements of a block are placed. -/
theorem blocks_placed : Effect.PlacedInside (Blocks one) := by
  intro g ns g'' vars _ hg h
  obtain ⟨⟨h⟩, -⟩ := h
  have hin : Covers vars { g with scope := g.scope.enter, stmtDepth := g.stmtDepth + 1 } :=
    ⟨hg.scope, hg.unbound, hg.this, hg.distinct, hg.freshVar, hg.freshCounter, hg.within, hg.named⟩
  have hsame : SameFunction g { g with scope := g.scope.enter, stmtDepth := g.stmtDepth + 1 } :=
    ⟨rfl, rfl, rfl, rfl⟩
  -- What the block introduces is dropped with the frame, so only the sites are kept.
  refine (repeats_placed hadv hone (by simp [Scope.enter]) hin h).1.mono fun _ _ hs => ?_
  exact hs.earlier hsame

/-- The statements of a case are placed. -/
theorem caseBody_placed : Effect.PlacedInside (CaseBody one) := by
  intro g ns g'' vars _ hg h
  obtain ⟨⟨h⟩, -⟩ := h
  have hopen : g.scope.enter.counts ≠ [] := by simp [Scope.enter]
  have hin : Covers vars { g with
      scope := g.scope.enter
      stmtDepth := g.stmtDepth + 1
      jumps := .switch :: g.jumps } :=
    ⟨hg.scope, hg.unbound, hg.this, hg.distinct, hg.freshVar, hg.freshCounter, hg.within, hg.named⟩
  have hsame : SameFunction g { g with
      scope := g.scope.enter
      stmtDepth := g.stmtDepth + 1
      jumps := .switch :: g.jumps } := ⟨rfl, rfl, rfl, rfl⟩
  cases h with
  | plain _ h =>
      exact (repeats_placed hadv hone hopen hin h).1.mono fun _ _ hs => hs.earlier hsame
  | broken _ h _ =>
      obtain ⟨hsites, hg'⟩ := repeats_placed hadv hone hopen hin h
      have hafter := hsame.trans (repeats_advances hadv hopen h).sameFunction
      have hsites : Sited (StatedIn g) vars _ := hsites.mono fun _ _ hs => hs.earlier hsame
      exact hsites.append (Sited.simple rfl ((Stated.breakJump.now hg').earlier hafter))

/-- The cases of a switch are placed, each in a list of its own. -/
theorem cases_placed {t : Ty} (ht : TagType t) (hw : t.Writable) {n : Nat} {seen : List Literal}
    {ns : List Node} (hopen : g.scope.counts ≠ []) (hg : Covers vars g)
    (h : Cases one t n seen g ns g') :
    ∀ c ∈ ns, Sited (StatedIn g) vars [c] ∧
      ∃ l body, c = .ofArgs .case (.lit l :: body) ∧ ConstantOf t (.lit l) := by
  induction h with
  | none g seen => simp
  | repetition _ _ _ ih => exact ih hopen hg
  | @case _ _ g g' _ body rest l hl _ hbody _ ih =>
      have hkeep := caseBody_keeps hadv hbody
      intro c hc
      rcases List.mem_cons.1 hc with rfl | hc
      · have hlabel : (Node.lit l).Writable := (hl.writable hw).root
        refine ⟨Sited.single ((Stated.case body ht hl.constant hlabel).now hg) ?_, l, body, rfl,
          hl.constant⟩
        intro stmts hstmts
        obtain rfl := List.mem_singleton.1 hstmts
        exact caseBody_placed hadv hone hopen hg hbody
      · obtain ⟨hsites, hshape⟩ := ih (hkeep.advances hopen).isOpen (hg.keeps hkeep) c hc
        exact ⟨hsites.mono fun _ _ hs => hs.earlier hkeep.sameFunction, hshape⟩

/-- The default of a switch is placed, in a list of its own. -/
theorem defaults_placed {ns : List Node} (hopen : g.scope.counts ≠ []) (hg : Covers vars g)
    (h : Defaults one g ns g') :
    ∀ c ∈ ns, Sited (StatedIn g) vars [c] ∧ ∃ body, c = .ofArgs .defaultCase body := by
  cases h with
  | none => simp
  | @body _ _ stmts h =>
      intro c hc
      obtain rfl := List.mem_singleton.1 hc
      refine ⟨Sited.single ((Stated.defaultCase stmts).now hg) ?_, stmts, rfl⟩
      intro body hbody
      obtain rfl := List.mem_singleton.1 hbody
      exact caseBody_placed hadv hone hopen hg h

/-- A block as the body of a statement is placed. -/
theorem block_placed {body : List Node} (hopen : g.scope.counts ≠ []) (hg : Covers vars g)
    (h : Blocks one g body g') : Sited (StatedIn g) vars [.block body] := by
  apply Sited.single ((Stated.block body).now hg)
  intro stmts hstmts
  obtain rfl := List.mem_singleton.1 hstmts
  exact blocks_placed hadv hone hopen hg h

/-- The body of a loop is placed, after the counter has been introduced. -/
theorem loopBody_placed {body : List Node} (hopen : g.scope.counts ≠ []) (hg : Covers vars g)
    (h : Targets (Blocks one) .loop { g with nextCounter := g.nextCounter + 1 } body g') :
    Sited (StatedIn { g with nextCounter := g.nextCounter + 1 })
      (⟨g.counterName, .int⟩ :: vars) [.block body] := by
  obtain ⟨h⟩ := h
  have hstep := hg.stepCounter
  have hsame : SameFunction { g with nextCounter := g.nextCounter + 1 } { g with
      nextCounter := g.nextCounter + 1
      jumps := .loop :: g.jumps } := ⟨rfl, rfl, rfl, rfl⟩
  refine (block_placed hadv hone (g := { g with
    nextCounter := g.nextCounter + 1
    jumps := .loop :: g.jumps }) hopen ?_ h).mono fun _ _ hs => ?_
  · exact ⟨hstep.scope, hstep.unbound, hstep.this, hstep.distinct, hstep.freshVar,
      hstep.freshCounter, hstep.within, hstep.named⟩
  · exact hs.earlier hsame

end Placed

/-! ## Statements -/

/-- An assignment to a place keeps the environment. -/
theorem assigns_introduces {t : Ty} {place : Node} {ns : List Node} {b : Nat}
    (hg : Covers vars g) (hplace : Place g.env t place) (h : Assigns g.env b t place ns) :
    introduceAll vars ns = vars := by
  have hassign : ∀ x, introduce vars (.assign place x) = vars := by
    intro x
    cases hplace with
    | var hv _ => exact introduce_known (hg.visible _ hv) x
    | field _ _ _ => rfl
  cases h with
  | compound _ _ => rfl
  | value _ _ => exact hassign _
  | constant _ => exact hassign _
  | nothing _ => rfl

/-- What an assignment to a place builds holds no other statement. -/
theorem assigns_simple {env : Env} {t : Ty} {place : Node} {ns : List Node} {b : Nat}
    (h : Assigns env b t place ns) : ns = [] ∨ ∃ n, ns = [n] ∧ n.op.holdsStmts = false := by
  cases h with
  | compound _ _ => exact Or.inr ⟨_, rfl, rfl⟩
  | value _ _ => exact Or.inr ⟨_, rfl, rfl⟩
  | constant _ => exact Or.inr ⟨_, rfl, rfl⟩
  | nothing _ => exact Or.inl rfl

/-- A simple statement that is no assignment is placed. -/
theorem simple_placed {n : Node} (hg : Covers vars g) (h : Stated g vars n)
    (hop : n.op.holdsStmts = false) (hassign : n.op ≠ .assign) :
    Sited (StatedIn g) vars [n] ∧ Covers (introduceAll vars [n]) g := by
  refine ⟨Sited.simple hop (h.now hg), ?_⟩
  rw [introduceAll, List.foldl_cons, List.foldl_nil, introduce_of_op hassign]
  exact hg

/-- A loop is placed with the assignment before it. -/
theorem loop_placed {one : Effect} (hadv : one.Advancing) (hone : one.Placed) {loop : Node}
    {body : List Node} (hopen : g.scope.counts ≠ []) (hg : Covers vars g)
    (h : Targets (Blocks one) .loop { g with nextCounter := g.nextCounter + 1 } body g')
    (hbodies : loop.bodies = [[.block body]]) (hassign : loop.op ≠ .assign)
    (hloop : Stated { g with nextCounter := g.nextCounter + 1 }
      (⟨g.counterName, .int⟩ :: vars) loop) :
    Sited (StatedIn g) vars [.resetCounter g.counterName, loop] ∧
      Covers (introduceAll vars [.resetCounter g.counterName, loop]) g' := by
  -- The reset introduces the counter for the loop and for the rest of the list.
  have hfresh : g.counterName ∉ vars.map (·.name) := hg.freshCounter _ (Nat.le_refl _)
  have hreset : introduce vars (.resetCounter g.counterName) = ⟨g.counterName, .int⟩ :: vars :=
    introduce_fresh hfresh _
  have hcounter : Stated g vars (.resetCounter g.counterName) := .counter hfresh
  have hsame : SameFunction g { g with nextCounter := g.nextCounter + 1 } := ⟨rfl, rfl, rfl, rfl⟩
  have hkeep := targets_keeps (blocks_keeps hadv) h
  constructor
  · apply Sited.cons (hcounter.now hg)
    · intro stmts hstmts
      cases hstmts
    · rw [hreset]
      apply Sited.single ((hloop.now hg.stepCounter).earlier hsame)
      intro stmts hstmts
      rw [hbodies] at hstmts
      obtain rfl := List.mem_singleton.1 hstmts
      exact (loopBody_placed hadv hone hopen hg h).mono fun _ _ hs => hs.earlier hsame
  · rw [introduceAll, List.foldl_cons, hreset, List.foldl_cons, List.foldl_nil,
      introduce_of_op hassign]
    exact hg.stepCounter.keeps hkeep

section Nested

variable {one : Effect} (hadv : one.Advancing) (hone : one.Placed)

include hadv hone

/-- Two branches are placed. -/
theorem ifElse_placed {g₁ : Generator Unit} {cond : Node} {body other : List Node}
    (hopen : g.scope.counts ≠ []) (hg : Covers vars g)
    (hcond : Derives g.env g.budget (.category .cond) cond) (h : Blocks one g body g₁)
    (ho : Blocks one g₁ other g') :
    Sited (StatedIn g) vars [.ifElse cond (.block body) (.block other)] ∧ Covers vars g' := by
  have hkeep := blocks_keeps hadv h
  have hg₁ := hg.keeps hkeep
  have hother := block_placed hadv hone (hkeep.advances hopen).isOpen hg₁ ho
  refine ⟨Sited.single ((Stated.ifElse body other hcond).now hg) ?_,
    hg₁.keeps (blocks_keeps hadv ho)⟩
  intro stmts hstmts
  rcases List.mem_cons.1 hstmts with rfl | hstmts
  · exact block_placed hadv hone hopen hg h
  · obtain rfl := List.mem_singleton.1 hstmts
    exact hother.mono fun _ _ hs => hs.earlier hkeep.sameFunction

/-- The cases and the default of a switch are placed. -/
theorem switch_placed {g₁ : Generator Unit} {t : Ty} {tag : Node} {n : Nat}
    {cases default : List Node} (hopen : g.scope.counts ≠ []) (hg : Covers vars g)
    (ht : TagType t) (hwithin : t.Within g.symbols.classNames)
    (htag : Derives g.env g.budget (.value t) tag) (hc : Cases one t n [] g cases g₁)
    (hd : Defaults one g₁ default g') :
    Sited (StatedIn g) vars [.ofArgs .switch (tag :: cases ++ default)] ∧ Covers vars g' := by
  have hkeep := cases_keeps hadv hc
  have hg₁ := hg.keeps hkeep
  have hcases := cases_placed hadv hone ht hwithin.writable hopen hg hc
  have hdefault := defaults_placed hadv hone (hkeep.advances hopen).isOpen hg₁ hd
  have hall : ∀ c ∈ cases ++ default, Sited (StatedIn g) vars [c] := by
    intro c hmem
    rcases List.mem_append.1 hmem with hmem | hmem
    · exact (hcases c hmem).1
    · exact (hdefault c hmem).1.mono fun _ _ hs => hs.earlier hkeep.sameFunction
  have hshape : ∀ c ∈ cases ++ default,
      (∃ l body, c = .ofArgs .case (.lit l :: body) ∧ ConstantOf t (.lit l)) ∨
        ∃ body, c = .ofArgs .defaultCase body := by
    intro c hmem
    rcases List.mem_append.1 hmem with hmem | hmem
    · exact Or.inl (hcases c hmem).2
    · exact Or.inr (hdefault c hmem).2
  refine ⟨Sited.single ((Stated.switch ht hwithin htag hshape).now hg) ?_,
    hg₁.keeps (defaults_keeps hadv hd)⟩
  intro stmts hstmts
  obtain ⟨c, hmem, rfl⟩ := List.mem_map.1 hstmts
  exact hall c hmem

end Nested

/-- A statement is placed if what is nested in it is. -/
theorem emits_placed {inner : Option Effect}
    (hinner : ∀ one, inner = some one → one.Advancing ∧ one.Placed) :
    Effect.Placed (Emits inner) := by
  intro g ns g' vars hopen hg h
  -- Statements without nested ones are read where they stand; the others hand their bodies on.
  cases h with
  | declaration h => exact declares_placed hopen hg h
  | assignment hplace h =>
      rw [assigns_introduces hg hplace h]
      refine ⟨?_, hg⟩
      rcases assigns_simple h with rfl | ⟨n, rfl, hop⟩
      · exact .nil
      · exact Sited.simple hop ((Stated.assignment hplace h).now hg)
  | @dump _ n h =>
      have hop := h.call_op
      exact simple_placed hg (.dump h) (by rw [hop]; rfl) (by rw [hop]; decide)
  | echo h => exact simple_placed hg (.echo h) rfl (by simp [Node.ofArgs, Node.op])
  | voidCall hf hresult h =>
      rcases h.call_op with hop | hop
      · exact simple_placed hg (.voidCall hf hresult h) (by rw [hop]; rfl) (by rw [hop]; decide)
      · exact simple_placed hg (.voidCall hf hresult h) (by rw [hop]; rfl) (by rw [hop]; decide)
  | @block one _ _ body hsome h =>
      obtain ⟨hadv, hone⟩ := hinner one hsome
      exact ⟨block_placed hadv hone hopen hg h, hg.keeps (blocks_keeps hadv h)⟩
  | @ifThen one _ _ cond body hsome hcond h =>
      obtain ⟨hadv, hone⟩ := hinner one hsome
      refine ⟨Sited.single ((Stated.ifThen body hcond).now hg) ?_, hg.keeps (blocks_keeps hadv h)⟩
      intro stmts hstmts
      obtain rfl := List.mem_singleton.1 hstmts
      exact block_placed hadv hone hopen hg h
  | ifElse hsome hcond h ho =>
      obtain ⟨hadv, hone⟩ := hinner _ hsome
      exact ifElse_placed hadv hone hopen hg hcond h ho
  | @whileLoop one _ _ limit body hsome hlow hhigh h =>
      obtain ⟨hadv, hone⟩ := hinner one hsome
      exact loop_placed hadv hone hopen hg h rfl (by simp [Node.ofArgs, Node.op])
        (.whileLoop body List.mem_cons_self hlow hhigh)
  | @doWhile one _ _ limit body hsome hlow hhigh h =>
      obtain ⟨hadv, hone⟩ := hinner one hsome
      exact loop_placed hadv hone hopen hg h rfl (by simp [Node.ofArgs, Node.op])
        (.doWhile body List.mem_cons_self hlow hhigh)
  | switch hsome ht hwithin htag _ _ hc hd =>
      obtain ⟨hadv, hone⟩ := hinner _ hsome
      exact switch_placed hadv hone hopen hg ht hwithin htag hc hd
  | breakJump _ => exact simple_placed hg .breakJump rfl (by simp [Node.ofArgs, Node.op])
  | continueJump _ => exact simple_placed hg .continueJump rfl (by simp [Node.ofArgs, Node.op])
  | returnJump _ h =>
      rcases h.return_op with hop | hop
      · exact simple_placed hg (.returns h) (by rw [hop]; rfl) (by rw [hop]; decide)
      · exact simple_placed hg (.returns h) (by rw [hop]; rfl) (by rw [hop]; decide)

/-- Every statement is placed, whatever its room. -/
theorem statement_placed : ∀ room, Effect.Placed (Statement room)
  | 0 => emits_placed (by simp)
  | room + 1 => by
      apply emits_placed
      intro one hsome
      cases hsome
      exact ⟨statement_advances room, statement_placed room⟩

/-- Every statement of a function body is placed. -/
theorem body_placed : Effect.PlacedInside Body := by
  intro g ns g'' vars hopen hg h
  -- Declarations and statements are one list; the environment passes from one to the other.
  have hstmts : ∀ {n m : Nat} {g' g'' : Generator Unit} {decls stmts : List Node},
      Repeats Declares n g decls g' → Repeats (Statement g'.room) m g' stmts g'' →
      Sited (StatedIn g) vars (decls ++ stmts) ∧
        Covers (introduceAll vars (decls ++ stmts)) g'' ∧ Advances g g'' := by
    intro n m g' g'' decls stmts hd hs
    have hadvance := repeats_advances declares_advances hopen hd
    have hadvance' := repeats_advances (statement_advances _) hadvance.isOpen hs
    obtain ⟨hdecls, hg'⟩ := repeats_placed declares_advances declares_placed hopen hg hd
    obtain ⟨hrest, hg''⟩ :=
      repeats_placed (statement_advances _) (statement_placed _) hadvance.isOpen hg' hs
    refine ⟨hdecls.append (hrest.mono fun _ _ hs => hs.earlier hadvance.sameFunction), ?_,
      hadvance.trans hadvance'⟩
    rw [introduceAll_append]
    exact hg''
  cases h with
  | void hd hs _ => exact (hstmts hd hs).1
  | value hd hs _ hlast =>
      obtain ⟨hsites, hg'', hadvance⟩ := hstmts hd hs
      apply hsites.append
      have hstated := ((Stated.returns hlast).now hg'').earlier hadvance.sameFunction
      rcases hlast.return_op with hop | hop
      · exact Sited.simple (by rw [hop]; rfl) hstated
      · exact Sited.simple (by rw [hop]; rfl) hstated

end TypedPhp
