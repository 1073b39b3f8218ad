import TypedPhp.Generate.Stmt
import TypedPhp.Proofs.Expr.Source
import TypedPhp.Proofs.Ty.Proper

set_option autoImplicit false

/-!
# Footprints of the steps that build statements

What a step leaves of the state is a relation between the states before and after it. The steps that
build statements call each other at three sizes: what stands in a frame of its own, one statement,
and statements in a row. A `Footprint` has one relation for each size and says how they go together;
every step, on any stack and from every state, then respects the relation of its size
(`Footprint.stmt`).
-/

namespace TypedPhp

variable {ρ α β : Type}

/-! ## Footprints -/

/-- Relations for what steps may do to the state: `inner` for what stands in a frame of its own,
`single` for one statement, `several` for statements in a row. -/
structure Footprint (ρ : Type) where
  inner : Generator ρ → Generator ρ → Prop
  single : Generator ρ → Generator ρ → Prop
  several : Generator ρ → Generator ρ → Prop
  inner_trans : ∀ {g g' g''}, inner g g' → inner g' g'' → inner g g''
  several_trans : ∀ {g g' g''}, several g g' → several g' g'' → several g g''
  inner_single : ∀ {g g'}, inner g g' → single g g'
  single_several : ∀ {g g'}, single g g' → several g g'
  /-- A draw changes the source. -/
  drawn : ∀ (g : Generator ρ) source, inner g { g with source }
  /-- What is drawn before a statement does not matter. -/
  drawn_single : ∀ {g g'} source, single { g with source } g' → single g g'
  /-- A loop takes a fresh counter. -/
  counter : ∀ g : Generator ρ, inner g { g with nextCounter := g.nextCounter + 1 }
  /-- A declaration takes a fresh name and adds it to the scope. -/
  declares : ∀ {g : Generator ρ} {t : Ty} {s : Scope} source, t.Proper →
    g.scope.push ("v" ++ toString g.nextVar) t = .ok s →
    single g { g with source, nextVar := g.nextVar + 1, scope := s }
  /-- What stands in a frame of its own is one level deeper, and inside a new target for a case. -/
  encloses : ∀ {g g' : Generator ρ} {s : Scope} (targets : List JumpTarget),
    several { g with
      scope := g.scope.enter
      stmtDepth := g.stmtDepth + 1
      jumps := targets ++ g.jumps } g' →
    g'.scope.leave = .ok s →
    inner g { g' with
      jumps := g'.jumps.drop targets.length
      stmtDepth := g'.stmtDepth - 1
      scope := s }
  /-- The body of a loop is inside a new target. -/
  target : ∀ {g g' : Generator ρ} (target : JumpTarget),
    inner { g with jumps := target :: g.jumps } g' → inner g { g' with jumps := g'.jumps.tail }

namespace Footprint

/-- A part of the state is as before, whatever the size of the step. Draws, counters and
declarations do not touch the part; what is pushed around nested statements is popped after them. -/
def leaving {γ : Type} (part : Generator ρ → γ)
    (drawn : ∀ g source, part { g with source } = part g)
    (counter : ∀ g nextCounter, part { g with nextCounter } = part g)
    (declares : ∀ g source nextVar scope, part { g with source, nextVar, scope } = part g)
    (encloses : ∀ (g g' : Generator ρ) (s : Scope) (targets : List JumpTarget),
      part g' = part { g with
        scope := g.scope.enter
        stmtDepth := g.stmtDepth + 1
        jumps := targets ++ g.jumps } →
      part { g' with
        jumps := g'.jumps.drop targets.length
        stmtDepth := g'.stmtDepth - 1
        scope := s } = part g)
    (target : ∀ (g g' : Generator ρ) (jump : JumpTarget),
      part g' = part { g with jumps := jump :: g.jumps } →
      part { g' with jumps := g'.jumps.tail } = part g) : Footprint ρ where
  inner g g' := part g' = part g
  single g g' := part g' = part g
  several g g' := part g' = part g
  inner_trans h h' := h'.trans h
  several_trans h h' := h'.trans h
  inner_single h := h
  single_several h := h
  drawn := drawn
  drawn_single source h := h.trans (drawn _ source)
  counter g := counter g _
  declares source _ _ := declares _ source _ _
  encloses targets h _ := encloses _ _ _ targets h
  target jump h := target _ _ jump h

open Build (Respects SourceOnly)

variable (F : Footprint ρ) {x : Build ρ α} {one : Build ρ (List Node)}

/-! ### Steps without statements -/

/-- A step that changes the source only. -/
theorem source (hx : SourceOnly x) : Respects F.inner x := by
  constructor
  intro g a g' h
  obtain ⟨source, rfl⟩ := hx.of_ok h
  exact F.drawn g source

theorem pure (a : α) : Respects F.inner (Pure.pure a : Build ρ α) := F.source (.pure a)

theorem throw (f : Fault) : Respects F.inner (MonadExcept.throw f : Build ρ α) :=
  F.source (.throw f)

theorem draw (d : Env → Draw ρ α) : Respects F.inner (Build.draw d) := F.source (.draw d)

theorem lift (y : Except Fault α) : Respects F.inner (liftM y : Build ρ α) := F.source (.lift y)

variable {F}

theorem bind {k : α → Build ρ β} (hx : Respects F.inner x) (hk : ∀ a, Respects F.inner (k a)) :
    Respects F.inner (x >>= k) :=
  hx.bind_of hk F.inner_trans

theorem inner_several (hx : Respects F.inner x) : Respects F.several x :=
  hx.mono fun _ _ h => F.single_several (F.inner_single h)

theorem bind_several {k : α → Build ρ β} (hx : Respects F.several x)
    (hk : ∀ a, Respects F.several (k a)) : Respects F.several (x >>= k) :=
  hx.bind_of hk F.several_trans

/-- A statement after a draw. -/
theorem draw_bind_single {x : Env → Draw ρ α} {k : α → Build ρ β}
    (hk : ∀ a, Respects F.single (k a)) : Respects F.single (Build.draw x >>= k) := by
  apply Respects.of_runs
  intro g
  refine Runs.bind (Build.draw_runs_any fun a source => ?_)
  exact ((hk a).runs { g with source }).mono fun _ _ h => F.drawn_single source h

theorem get_bind_single {k : Generator ρ → Build ρ β} (hk : ∀ g, Respects F.single (k g)) :
    Respects F.single (get >>= k) := by
  apply Respects.of_runs
  intro g
  exact Runs.bind (Build.get_runs ((hk g).runs g))

/-- A node for which only the source changes, as the only statement. -/
theorem single_node {x : Build ρ Node} (hx : SourceOnly x) : Respects F.single (do
    let n ← x
    return [n]) :=
  (F.source (hx.bind fun n => .pure [n])).mono fun _ _ => F.inner_single

/-! ### Lists of statements -/

/-- Repetitions of a step. -/
theorem repeated (hone : Respects F.several one) :
    ∀ n, Respects F.several (Build.repeated one n)
  | 0 => inner_several (F.pure [])
  | n + 1 => by
      rw [Build.repeated]
      refine bind_several hone fun stmts => ?_
      apply Respects.ite
      · exact inner_several (F.pure stmts)
      · refine bind_several (repeated hone n) fun rest => ?_
        exact inner_several (F.pure _)

variable [WordSource ρ]

/-- A block. -/
theorem block (hone : Respects F.several one) : Respects F.inner (Build.block one) := by
  have hstmts : Respects F.several (do
      let n ← Build.draw fun env => Draw.range 1 (max env.config.maxBlockStmts 1)
      Build.repeated one n) :=
    bind_several (inner_several (F.draw _)) fun n => repeated hone n
  unfold Build.block
  refine bind (.of_runs fun g => ?_) fun stmts => F.pure _
  apply Build.inFrame_runs_any
  apply Build.nested_runs
  exact (hstmts.runs _).mono fun _ _ h s hs => F.encloses (g := g) [] h hs

/-- A condition over blocks. -/
theorem condition (hone : Respects F.several one) : Respects F.inner (Build.condition one) := by
  unfold Build.condition
  refine bind (F.source (.choose .cond)) fun cond => ?_
  refine bind (block hone) fun body => ?_
  refine bind (F.draw _) fun hasAlternative => ?_
  apply Respects.ite
  · exact bind (block hone) fun alternative => F.pure _
  · exact F.pure _

/-- A loop. -/
theorem loop (hone : Respects F.several one) : Respects F.inner (Build.loop one) := by
  unfold Build.loop
  refine bind (.of_runs fun g => Build.freshCounter_runs (F.counter g)) fun counter => ?_
  refine bind (F.draw _) fun limit => ?_
  refine bind (.of_runs fun g => ?_) fun body => ?_
  · apply Build.withTarget_runs
    exact ((block hone).runs _).mono fun _ _ h => F.target .loop h
  · exact bind (F.draw _) fun checksFirst => F.pure _

/-- The body of a case. -/
theorem caseBody (hone : Respects F.several one) : Respects F.inner (Build.caseBody one) := by
  have hstmts : Respects F.several (do
      let n ← Build.draw fun _ => Draw.range 0 2
      let stmts ← Build.repeated one n
      if Build.endsInJump stmts then return stmts
      else do
        let breaks ← Build.draw fun env => Draw.chance env.config.caseBreak
        return if breaks then stmts ++ [Node.ofArgs .breakJump []] else stmts) := by
    refine bind_several (inner_several (F.draw _)) fun n => ?_
    refine bind_several (repeated hone n) fun stmts => ?_
    apply Respects.ite
    · exact inner_several (F.pure stmts)
    · exact inner_several (bind (F.draw _) fun breaks => F.pure _)
  -- The statements are built in a frame of their own, one level down and with one target more; all
  -- of this is taken back.
  unfold Build.caseBody
  apply Respects.of_runs
  intro g
  apply Build.inFrame_runs_any
  apply Build.nested_runs
  apply Build.withTarget_runs
  refine (hstmts.runs _).mono fun _ g' h s hs => ?_
  rw [← List.drop_one]
  exact F.encloses (g := g) [.switch] h hs

/-- The cases of a switch. -/
theorem casesOf (hone : Respects F.several one) (t : Ty) :
    ∀ n seen, Respects F.inner (Build.casesOf one t n seen)
  | 0, _ => F.pure []
  | n + 1, seen => by
      rw [Build.casesOf]
      refine bind (F.draw _) fun label => ?_
      refine bind (F.lift _) fun l? => ?_
      cases l? with
      | none => exact F.throw _
      | some l =>
          apply Respects.ite
          · exact casesOf hone t n seen
          · refine bind (caseBody hone) fun body => ?_
            exact bind (casesOf hone t n _) fun rest => F.pure _

/-- A switch. -/
theorem switch (hone : Respects F.several one) : Respects F.inner (Build.switch one) := by
  unfold Build.switch
  refine bind (F.draw _) fun t => ?_
  refine bind (F.source (.value t)) fun tag => ?_
  refine bind (F.draw _) fun n => ?_
  refine bind (casesOf hone t n []) fun cases => ?_
  refine bind (F.draw _) fun hasDefault => ?_
  apply Respects.ite
  · refine bind (caseBody hone) fun body => ?_
    exact bind (F.pure _) fun default => F.pure _
  · exact bind (F.pure _) fun default => F.pure _

/-! ### Statements -/

/-- A declaration. -/
theorem declaration : Respects F.single (Build.declaration : Build ρ (List Node)) := by
  apply Respects.of_runs
  intro g
  unfold Build.declaration
  -- The type must be proper, so the draw of it is not an arbitrary one.
  have htype : Draw.Gives (fun _ => True) (Draw.type g.env : Draw ρ Ty) fun t =>
      t.Storable ∧ t.Within g.env.symbols.classNames :=
    Draw.type_gives (fun _ _ _ => trivial) trivial
  refine Runs.bind (Build.draw_runs htype fun t source ht => ?_)
  unfold Build.declare
  refine Runs.bind (Build.freshVar_runs ?_)
  refine Runs.bind (((SourceOnly.firstValue t).runs _).mono fun x g' hg' => ?_)
  obtain ⟨source', rfl⟩ := hg'
  refine Runs.bind (Build.modifyScope_runs_any fun s hs => ?_)
  exact Runs.pure (F.declares source' ht.1.proper hs)

theorem assignment : Respects F.single (Build.assignment : Build ρ (List Node)) := by
  unfold Build.assignment
  refine draw_bind_single fun place? => ?_
  cases place? with
  | none => exact declaration
  | some place => exact (F.source (.assignTo place)).mono fun _ _ => F.inner_single

/-- What stands for a jump. -/
theorem jumpSubstitute (hone : Respects F.several one) :
    Respects F.single (Build.jumpSubstitute one) := by
  refine get_bind_single fun g => ?_
  apply Respects.ite
  · exact (condition hone).mono fun _ _ => F.inner_single
  · exact declaration

/-- A statement of a kind. -/
theorem ofKind (hone : Respects F.several one) (kind : StmtKind) :
    Respects F.single (Build.ofKind one kind) := by
  cases kind with
  | declaration => exact declaration
  | block => exact (bind (block hone) fun b => F.pure [b]).mono fun _ _ => F.inner_single
  | condition => exact (condition hone).mono fun _ _ => F.inner_single
  | assignment => exact assignment
  | dump => exact single_node .dump
  | echo => exact single_node .echo
  | voidCall => exact single_node .voidCall
  | loop => exact (loop hone).mono fun _ _ => F.inner_single
  | switch => exact (switch hone).mono fun _ _ => F.inner_single
  | breakJump =>
      refine get_bind_single fun g => ?_
      split
      · exact (F.pure _).mono fun _ _ => F.inner_single
      · exact jumpSubstitute hone
  | continueJump =>
      refine get_bind_single fun g => ?_
      split
      · exact (F.pure _).mono fun _ _ => F.inner_single
      · exact jumpSubstitute hone
  | returnJump => exact get_bind_single fun g => single_node (.returnOf g.currentResult)

/-- One statement on any stack respects the relation of single statements. -/
theorem stmt : ∀ stack, Respects F.single (Build.stmt stack : Build ρ (List Node))
  | 0 => (F.throw _).mono fun _ _ => F.inner_single
  -- What is nested has less of the stack, and it may be repeated.
  | stack + 1 => by
      refine get_bind_single fun g => draw_bind_single fun kind => ?_
      exact ofKind ((stmt stack).mono fun _ _ => F.single_several) kind

end Footprint

end TypedPhp
