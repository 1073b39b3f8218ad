import TypedPhp.Proofs.Scope.Frames
import TypedPhp.Proofs.Stmt.Grammar

set_option autoImplicit false

/-!
# What statements leave unchanged

A statement only advances the state: it adds fresh variables of proper types to the innermost frame
and steps the counters of names. What is nested in a frame of its own keeps even the scope. The
induction follows the grammar: a step that advances also advances when it is repeated or nested, so
every statement does (`statement_advances`), whatever its room.
-/

namespace TypedPhp

variable {g g' g'' : Generator Unit} {ns : List Node} {one : Effect}

/-- A variable with a fresh name between two states of the counter, of a type that has values. -/
def FreshVar (low high : Nat) (v : ScopeVar) : Prop :=
  v.type.Proper ∧ ∃ i, low ≤ i ∧ i < high ∧ v.name = "v" ++ toString i

/-- One state is another with fresh variables in the innermost frame and with later counters. -/
structure Advances (g g' : Generator Unit) : Prop where
  same : g' = { g with scope := g'.scope, nextVar := g'.nextVar, nextCounter := g'.nextCounter }
  scope : Scope.Grown (FreshVar g.nextVar g'.nextVar) g.scope g'.scope
  vars : g.nextVar ≤ g'.nextVar
  counters : g.nextCounter ≤ g'.nextCounter

/-- One state is another with later counters. -/
structure Keeps (g g' : Generator Unit) : Prop where
  same : g' = { g with nextVar := g'.nextVar, nextCounter := g'.nextCounter }
  vars : g.nextVar ≤ g'.nextVar
  counters : g.nextCounter ≤ g'.nextCounter

theorem FreshVar.mono {low high low' high' : Nat} {v : ScopeVar} (h : FreshVar low high v)
    (hlow : low' ≤ low) (hhigh : high ≤ high') : FreshVar low' high' v := by
  obtain ⟨hty, i, hi, hi', hname⟩ := h
  exact ⟨hty, i, by omega, by omega, hname⟩

namespace Advances

theorem refl (h : g.scope.counts ≠ []) : Advances g g :=
  ⟨rfl, .refl h, Nat.le_refl _, Nat.le_refl _⟩

/-- One advance after another. -/
theorem trans (h : Advances g g') (h' : Advances g' g'') : Advances g g'' where
  same := by
    rw [h'.same, h.same]
  scope := by
    apply (h.scope.mono _).trans (h'.scope.mono _)
    · intro v hv
      exact hv.mono (Nat.le_refl _) h'.vars
    · intro v hv
      exact hv.mono h.vars (Nat.le_refl _)
  vars := Nat.le_trans h.vars h'.vars
  counters := Nat.le_trans h.counters h'.counters

theorem isOpen (h : Advances g g') : g'.scope.counts ≠ [] := h.scope.counts_ne_nil

end Advances

namespace Keeps

theorem refl (g : Generator Unit) : Keeps g g := ⟨rfl, Nat.le_refl _, Nat.le_refl _⟩

theorem trans (h : Keeps g g') (h' : Keeps g' g'') : Keeps g g'' where
  same := by
    rw [h'.same, h.same]
  vars := Nat.le_trans h.vars h'.vars
  counters := Nat.le_trans h.counters h'.counters

theorem scope_eq (h : Keeps g g') : g'.scope = g.scope := by
  rw [h.same]

/-- What is kept is advanced. -/
theorem advances (h : Keeps g g') (hopen : g.scope.counts ≠ []) : Advances g g' where
  same := by
    rw [h.same]
  scope := by
    rw [h.scope_eq]
    exact .refl hopen
  vars := h.vars
  counters := h.counters

/-- What is kept inside a jump target is kept around it. -/
theorem inTarget {target : JumpTarget}
    (h : Keeps { g with jumps := target :: g.jumps } g') :
    Keeps g { g' with jumps := g'.jumps.tail } := by
  refine ⟨?_, h.vars, h.counters⟩
  rw [h.same]
  rfl

end Keeps

/-- A frame is closed with what was opened together with it: what advances inside, one level
deeper and perhaps inside new jump targets, leaves the state around the frame as it was. -/
theorem Advances.enclosed (targets : List JumpTarget) {s : Scope}
    (h : Advances { g with
      scope := g.scope.enter
      stmtDepth := g.stmtDepth + 1
      jumps := targets ++ g.jumps } g')
    (hleave : g'.scope.leave = .ok s) :
    Keeps g { g' with
      jumps := g'.jumps.drop targets.length
      stmtDepth := g'.stmtDepth - 1
      scope := s } := by
  -- The frame has only grown, so leaving it gives the scope from before.
  have hback := h.scope.leave_enter
  rw [hback] at hleave
  cases hleave
  refine ⟨?_, h.vars, h.counters⟩
  rw [h.same]
  simp

/-- What one statement may do to a state: step the counters, or add a variable of a type that has
values to the innermost frame, under the next name. -/
inductive Steps (g : Generator Unit) : Generator Unit → Prop where
  | keeps {g' : Generator Unit} : Keeps g g' → Steps g g'
  | declares {t : Ty} {s : Scope} : t.Proper →
      g.scope.push ("v" ++ toString g.nextVar) t = .ok s →
      Steps g { g with nextVar := g.nextVar + 1, scope := s }

/-- In an open frame, what one statement may do is an advance. -/
theorem Steps.advances (h : Steps g g') (hopen : g.scope.counts ≠ []) : Advances g g' := by
  cases h with
  | keeps h => exact h.advances hopen
  | @declares t s ht hpush =>
      obtain ⟨s', hpush', -, hgrown⟩ := Scope.push_grown hopen ("v" ++ toString g.nextVar) t
      rw [hpush] at hpush'
      cases hpush'
      refine ⟨rfl, hgrown.mono ?_, Nat.le_succ _, Nat.le_refl _⟩
      rintro v rfl
      exact ⟨ht, g.nextVar, Nat.le_refl _, Nat.lt_succ_self _, rfl⟩

/-! ## Steps of the grammar -/

/-- Wherever a frame is open, the step only advances the state. -/
def Effect.Advancing (one : Effect) : Prop :=
  ∀ {g ns g'}, g.scope.counts ≠ [] → one g ns g' → Advances g g'

/-- The step keeps the state but for the counters. -/
def Effect.Keeping (one : Effect) : Prop := ∀ {g ns g'}, one g ns g' → Keeps g g'

theorem declares_advances : Effect.Advancing Declares := by
  intro g ns g' hopen h
  obtain ⟨hty, -, -, hpush⟩ := h
  exact (Steps.declares hty.proper hpush).advances hopen

/-- Repetitions advance. -/
theorem repeats_advances (hone : one.Advancing) {n : Nat} : Effect.Advancing (Repeats one n) := by
  intro g ns g' hopen h
  induction h with
  | none g => exact .refl hopen
  | jump h _ => exact hone hopen h
  | next h _ _ ih =>
      have hfirst := hone hopen h
      exact hfirst.trans (ih hfirst.isOpen)

theorem many_advances (hone : one.Advancing) : Effect.Advancing (Many one) := by
  intro g ns g' hopen h
  obtain ⟨h⟩ := h
  exact repeats_advances hone hopen h

/-- What advances in a frame of its own keeps the state. -/
theorem nests_keeps (hone : one.Advancing) : Effect.Keeping (Nests one) := by
  intro g ns g'' h
  obtain ⟨h, hleave⟩ := h
  rename_i g' s
  have hin := hone (by simp [Scope.enter]) h
  exact hin.enclosed [] hleave

/-- What advances inside a jump target advances. -/
theorem targets_advances {target : JumpTarget} (hone : one.Advancing) :
    Effect.Advancing (Targets one target) := by
  intro g ns g'' hopen h
  obtain ⟨h⟩ := h
  rename_i g'
  have hopen' : ({ g with jumps := target :: g.jumps } : Generator Unit).scope.counts ≠ [] := hopen
  have hin := hone hopen' h
  refine ⟨?_, hin.scope, hin.vars, hin.counters⟩
  rw [hin.same]
  rfl

/-- What keeps the state inside a jump target keeps it. -/
theorem targets_keeps {target : JumpTarget} (hone : one.Keeping) :
    Effect.Keeping (Targets one target) := by
  intro g ns g'' h
  obtain ⟨h⟩ := h
  exact (hone h).inTarget

/-- A block keeps the state but for the counters. -/
theorem blocks_keeps (hone : one.Advancing) : Effect.Keeping (Blocks one) :=
  nests_keeps (many_advances hone)

theorem caseStmts_advances (hone : one.Advancing) : Effect.Advancing (CaseStmts one) := by
  intro g ns g' hopen h
  cases h with
  | plain _ h => exact repeats_advances hone hopen h
  | broken _ h _ => exact repeats_advances hone hopen h

/-- The body of a case keeps the state but for the counters. -/
theorem caseBody_keeps (hone : one.Advancing) : Effect.Keeping (CaseBody one) :=
  nests_keeps (targets_advances (caseStmts_advances hone))

/-- Cases keep the state. -/
theorem cases_keeps (hone : one.Advancing) {t : Ty} {n : Nat} {seen : List Literal} :
    Effect.Keeping (Cases one t n seen) := by
  intro g ns g' h
  induction h with
  | none g seen => exact .refl g
  | repetition _ _ _ ih => exact ih
  | case _ _ hbody _ ih => exact (caseBody_keeps hone hbody).trans ih

theorem defaults_keeps (hone : one.Advancing) : Effect.Keeping (Defaults one) := by
  intro g ns g' h
  cases h with
  | none => exact .refl g
  | body h => exact caseBody_keeps hone h

/-! ## Statements -/

/-- A loop keeps the state but for the counters. -/
theorem loop_keeps (hone : one.Advancing) {body : List Node}
    (h : Targets (Blocks one) .loop { g with nextCounter := g.nextCounter + 1 } body g') :
    Keeps g g' := by
  have hin := targets_keeps (blocks_keeps hone) h
  refine ⟨?_, hin.vars, ?_⟩
  · rw [hin.same]
  · exact Nat.le_trans (Nat.le_succ _) hin.counters

/-- A statement advances if what is nested in it does. -/
theorem emits_advances {inner : Option Effect} (hinner : ∀ one, inner = some one → one.Advancing) :
    Effect.Advancing (Emits inner) := by
  intro g ns g' hopen h
  cases h with
  | declaration h => exact declares_advances hopen h
  | assignment _ _ => exact .refl hopen
  | dump _ => exact .refl hopen
  | echo _ => exact .refl hopen
  | voidCall _ _ _ => exact .refl hopen
  | block hone hb => exact (blocks_keeps (hinner _ hone) hb).advances hopen
  | ifThen hone _ hb => exact (blocks_keeps (hinner _ hone) hb).advances hopen
  | ifElse hone _ hb ho =>
      have hbody := blocks_keeps (hinner _ hone) hb
      exact (hbody.trans (blocks_keeps (hinner _ hone) ho)).advances hopen
  | whileLoop hone _ _ hb => exact (loop_keeps (hinner _ hone) hb).advances hopen
  | doWhile hone _ _ hb => exact (loop_keeps (hinner _ hone) hb).advances hopen
  | switch hone _ _ _ _ _ hc hd =>
      have hcases := cases_keeps (hinner _ hone) hc
      exact (hcases.trans (defaults_keeps (hinner _ hone) hd)).advances hopen
  | breakJump _ => exact .refl hopen
  | continueJump _ => exact .refl hopen
  | returnJump _ _ => exact .refl hopen

/-- A statement only advances the state, however deep what is nested in it. -/
theorem statement_advances : ∀ room, Effect.Advancing (Statement room)
  | 0 => emits_advances (by simp)
  -- The room is what the recursion is on; the grammar nests a statement only by spending some.
  | room + 1 => by
      apply emits_advances
      intro one hone
      cases hone
      exact statement_advances room

/-- A function body only advances the state. -/
theorem body_advances : Effect.Advancing Body := by
  intro g ns g' hopen h
  cases h with
  | void hd hs _ =>
      have hdecls := repeats_advances declares_advances hopen hd
      exact hdecls.trans (repeats_advances (statement_advances _) hdecls.isOpen hs)
  | value hd hs _ _ =>
      have hdecls := repeats_advances declares_advances hopen hd
      exact hdecls.trans (repeats_advances (statement_advances _) hdecls.isOpen hs)

end TypedPhp
