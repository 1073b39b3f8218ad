import TypedPhp.Generate.State
import TypedPhp.Proofs.Runs.Basic
import TypedPhp.Random.Scripted

set_option autoImplicit false

/-!
# Outcomes of building steps

How each elementary step of the building changes the state. A draw changes the source only; a step
inside a frame, a nesting level or a jump target is described by what happens inside.

`Build.Respects R x` says of every run of a step that the states before and after it are related.
`Build.Draws E env budget x P` says that a step draws: from every state with these surroundings and
this budget of nested expressions it ends well, with a result that satisfies `P` and nothing but the
source changed.
-/

namespace TypedPhp

/-- A state in which one frame is open and nothing is known: the source continues from a seed, and
expressions are literals. -/
def Generator.bare (seed : UInt64) : Generator Scripted.Stream :=
  { start ⟨[], seed⟩ { Config.standard with maxExprDepth := 0 } 10 with
    scope := ⟨[], [0]⟩
    symbols := { SymbolTable.empty with isFrozen := true }
    exprDepth := 1 }

namespace Generator

variable {ρ : Type}

/-- How many levels of nested expressions are still allowed. -/
def budget (g : Generator ρ) : Nat := g.config.maxExprDepth + 1 - g.exprDepth

/-- Only the source has changed. -/
def OnlySource (g g' : Generator ρ) : Prop := ∃ source, g' = { g with source }

namespace OnlySource

variable {g g' g'' : Generator ρ}

theorem refl (g : Generator ρ) : OnlySource g g := ⟨g.source, rfl⟩

theorem trans (h : OnlySource g g') (h' : OnlySource g' g'') : OnlySource g g'' := by
  obtain ⟨s, rfl⟩ := h
  obtain ⟨s', rfl⟩ := h'
  exact ⟨s', rfl⟩

theorem env_eq (h : OnlySource g g') : g'.env = g.env := by
  obtain ⟨s, rfl⟩ := h
  rfl

theorem budget_eq (h : OnlySource g g') : g'.budget = g.budget := by
  obtain ⟨s, rfl⟩ := h
  rfl

/-- What is counted up before a step that changes the source only can be counted down after it. -/
theorem shallower (h : OnlySource { g with exprDepth := g.exprDepth + 1 } g') :
    OnlySource g { g' with exprDepth := g'.exprDepth - 1 } := by
  obtain ⟨s, rfl⟩ := h
  exact ⟨s, rfl⟩

end OnlySource

end Generator

namespace Build

variable {ρ α : Type} {E : Fault → Prop} {g : Generator ρ}

/-- A draw that returns has drawn from the source, and only the source goes on. -/
theorem draw_eq_ok {x : Env → Draw ρ α} {a : α} {g' : Generator ρ} (h : draw x g = .ok (a, g')) :
    ∃ s, x g.env g.source = .ok (a, s) ∧ g' = { g with source := s } := by
  have hdraw : draw x g = x g.env g.source >>= fun r => .ok (r.1, { g with source := r.2 }) := rfl
  rw [hdraw] at h
  cases hx : x g.env g.source with
  | error f =>
      rw [hx] at h
      cases h
  | ok r =>
      rw [hx] at h
      cases h
      exact ⟨r.2, rfl, rfl⟩

/-- A draw changes the source only. -/
theorem draw_runs {x : Env → Draw ρ α} {P : α → Prop} {Q : α → Generator ρ → Prop}
    (h : Draw.Gives E (x g.env) P) (hQ : ∀ a source, P a → Q a { g with source }) :
    Runs E (draw x) g Q := by
  have hdraw : draw x g = x g.env g.source >>= fun r => .ok (r.1, { g with source := r.2 }) := rfl
  have hrun := h.runs g.source
  cases hx : x g.env g.source with
  | error f =>
      apply Runs.error (f := f)
      · rw [hdraw, hx]
        rfl
      · exact hrun.of_error hx
  | ok r =>
      apply Runs.ok (a := r.1) (t := { g with source := r.2 })
      · rw [hdraw, hx]
        rfl
      · exact hQ _ _ (hrun.of_ok (a := r.1) (t := r.2) hx)

/-- A change of the scope that succeeds. -/
theorem modifyScope_runs {f : Scope → Except Fault Scope} {s : Scope}
    {Q : Unit → Generator ρ → Prop} (hf : f g.scope = .ok s) (hQ : Q () { g with scope := s }) :
    Runs E (modifyScope f) g Q := by
  apply Runs.ok (a := ()) (t := { g with scope := s })
  · rw [modifyScope, hf]
    rfl
  · exact hQ

/-- A change of the symbol table that succeeds. -/
theorem modifySymbols_runs {f : SymbolTable → Except Fault (α × SymbolTable)} {a : α}
    {t : SymbolTable} {Q : α → Generator ρ → Prop} (hf : f g.symbols = .ok (a, t))
    (hQ : Q a { g with symbols := t }) : Runs E (modifySymbols f) g Q := by
  apply Runs.ok (a := a) (t := { g with symbols := t })
  · rw [modifySymbols, hf]
    rfl
  · exact hQ

theorem get_runs {Q : Generator ρ → Generator ρ → Prop} (hQ : Q g g) :
    Runs E (get : Build ρ (Generator ρ)) g Q :=
  Runs.ok rfl hQ

theorem freshVar_runs {Q : String → Generator ρ → Prop}
    (hQ : Q ("v" ++ toString g.nextVar) { g with nextVar := g.nextVar + 1 }) :
    Runs E freshVar g Q :=
  Runs.ok rfl hQ

theorem freshCounter_runs {Q : String → Generator ρ → Prop}
    (hQ : Q ("_c" ++ toString g.nextCounter) { g with nextCounter := g.nextCounter + 1 }) :
    Runs E freshCounter g Q :=
  Runs.ok rfl hQ

variable {x : Build ρ α} {Q : α → Generator ρ → Prop}

/-- A step inside a scope frame of its own, which can be left. -/
theorem inFrame_runs
    (h : Runs E x { g with scope := g.scope.enter } fun a g' =>
      ∃ s, g'.scope.leave = .ok s ∧ Q a { g' with scope := s }) : Runs E (inFrame x) g Q := by
  unfold inFrame
  refine Runs.bind (modifyScope_runs rfl ?_)
  refine Runs.bind (h.mono fun a g' ha => ?_)
  obtain ⟨s, hleave, hQ⟩ := ha
  refine Runs.bind (modifyScope_runs hleave ?_)
  exact Runs.pure hQ

/-- A step one level deeper in the nesting of expressions. -/
theorem deeper_runs
    (h : Runs E x { g with exprDepth := g.exprDepth + 1 } fun a g' =>
      Q a { g' with exprDepth := g'.exprDepth - 1 }) : Runs E (deeper x) g Q := by
  unfold deeper
  refine Runs.bind (Runs.ok rfl ?_)
  refine Runs.bind (h.mono fun a g' ha => ?_)
  exact Runs.bind (Runs.ok rfl (Runs.pure ha))

/-- A step one level deeper in the nesting of statements. -/
theorem nested_runs
    (h : Runs E x { g with stmtDepth := g.stmtDepth + 1 } fun a g' =>
      Q a { g' with stmtDepth := g'.stmtDepth - 1 }) : Runs E (nested x) g Q := by
  unfold nested
  refine Runs.bind (Runs.ok rfl ?_)
  refine Runs.bind (h.mono fun a g' ha => ?_)
  exact Runs.bind (Runs.ok rfl (Runs.pure ha))

/-- A step inside a new jump target. -/
theorem withTarget_runs {target : JumpTarget}
    (h : Runs E x { g with jumps := target :: g.jumps } fun a g' =>
      Q a { g' with jumps := g'.jumps.tail }) : Runs E (withTarget target x) g Q := by
  unfold withTarget
  refine Runs.bind (Runs.ok rfl ?_)
  refine Runs.bind (h.mono fun a g' ha => ?_)
  exact Runs.bind (Runs.ok rfl (Runs.pure ha))

/-! ## Runs that may fail

Where every fault is admitted, nothing need be known of what a draw gives, and a change of the scope
need not succeed. -/

theorem draw_runs_any {x : Env → Draw ρ α} (hQ : ∀ a source, Q a { g with source }) :
    Runs (fun _ => True) (draw x) g Q :=
  draw_runs (Draw.Gives.any _) fun a source _ => hQ a source

theorem of_draw_eq_ok {x : Env → Draw ρ α} {P : α → Prop} {a : α} {g' : Generator ρ}
    (hx : Draw.Gives (fun _ => True) (x g.env) P) (h : draw x g = .ok (a, g')) : P a := by
  have hruns : Runs (fun _ => True) (draw x) g fun a _ => P a := draw_runs hx fun _ _ ha => ha
  exact hruns.of_ok h

/-- A change of the scope, if it succeeds. -/
theorem modifyScope_runs_any {f : Scope → Except Fault Scope} {Q : Unit → Generator ρ → Prop}
    (hQ : ∀ s, f g.scope = .ok s → Q () { g with scope := s }) :
    Runs (fun _ => True) (modifyScope f) g Q := by
  cases hf : f g.scope with
  | ok s => exact modifyScope_runs hf (hQ s hf)
  | error e =>
      apply Runs.error (f := e)
      · rw [modifyScope, hf]
        rfl
      · trivial

/-- A step inside a scope frame of its own, if the frame can be left. -/
theorem inFrame_runs_any
    (h : Runs (fun _ => True) x { g with scope := g.scope.enter } fun a g' =>
      ∀ s, g'.scope.leave = .ok s → Q a { g' with scope := s }) :
    Runs (fun _ => True) (inFrame x) g Q := by
  unfold inFrame
  refine Runs.bind (modifyScope_runs rfl ?_)
  refine Runs.bind (h.mono fun a g' ha => ?_)
  exact Runs.bind (modifyScope_runs_any fun s hs => Runs.pure (ha s hs))

/-! ## Relations that all runs respect -/

variable {β : Type}

/-- Every run of a step that returns relates the state before it to the state after it. -/
structure Respects (R : Generator ρ → Generator ρ → Prop) (x : Build ρ α) : Prop where
  of_ok : ∀ {g : Generator ρ} {a : α} {g' : Generator ρ}, x g = .ok (a, g') → R g g'

namespace Respects

variable {R R' R'' : Generator ρ → Generator ρ → Prop}

theorem of_runs (h : ∀ g, Runs (fun _ => True) x g fun _ g' => R g g') : Respects R x :=
  ⟨fun hrun => (h _).of_ok hrun⟩

theorem runs (h : Respects R x) (g : Generator ρ) :
    Runs (fun _ => True) x g fun _ g' => R g g' :=
  ⟨h.of_ok, fun _ => trivial⟩

theorem mono (h : Respects R x) (hR : ∀ g g', R g g' → R' g g') : Respects R' x :=
  ⟨fun hrun => hR _ _ (h.of_ok hrun)⟩

/-- One step after another. -/
theorem bind_of {k : α → Build ρ β} (hx : Respects R x) (hk : ∀ a, Respects R' (k a))
    (htrans : ∀ {g g' g''}, R g g' → R' g' g'' → R'' g g'') : Respects R'' (x >>= k) := by
  apply of_runs
  intro g
  apply Runs.bind
  refine (hx.runs g).mono fun a g' h => ?_
  exact ((hk a).runs g').mono fun b g'' h' => htrans h h'

theorem ite {c : Prop} [Decidable c] {y : Build ρ α} (hx : Respects R x) (hy : Respects R y) :
    Respects R (if c then x else y) := by
  split
  · exact hx
  · exact hy

end Respects

/-! ## Steps that draw -/

/-- A step draws: from every state with these surroundings and this budget it ends well, with a
result that satisfies `P` or in a fault of `E`, and only the source has changed. -/
structure Draws (E : Fault → Prop) (env : Env) (budget : Nat) (x : Build ρ α) (P : α → Prop) :
    Prop where
  runs : ∀ g : Generator ρ, g.env = env → g.budget = budget →
    Runs E x g fun a g' => P a ∧ g.OnlySource g'

namespace Draws

variable {env : Env} {budget : Nat} {P P' : α → Prop} {R : β → Prop}

/-- A step that draws, from a state with its surroundings and its budget. -/
theorem from_state (h : Draws E g.env g.budget x P)
    (hQ : ∀ a source, P a → Q a { g with source }) : Runs E x g Q := by
  refine (h.runs g rfl rfl).mono fun a g' ha => ?_
  obtain ⟨hP, s, rfl⟩ := ha
  exact hQ a s hP

theorem pure {a : α} (h : P a) : Draws E env budget (Pure.pure a : Build ρ α) P :=
  ⟨fun g _ _ => Runs.pure ⟨h, .refl g⟩⟩

theorem throw {f : Fault} (h : E f) :
    Draws E env budget (MonadExcept.throw f : Build ρ α) P :=
  ⟨fun _ _ _ => Runs.throw h⟩

theorem draw {d : Env → Draw ρ α} (h : Draw.Gives E (d env) P) :
    Draws E env budget (Build.draw d) P := by
  constructor
  rintro g rfl -
  exact draw_runs h fun a s ha => ⟨ha, s, rfl⟩

theorem blind {d : Draw ρ α} (h : Draw.Gives E d P) :
    Draws E env budget (Build.draw fun _ => d) P :=
  .draw h

/-- One step after another. -/
theorem bind {k : α → Build ρ β} (hx : Draws E env budget x P)
    (hk : ∀ a, P a → Draws E env budget (k a) R) : Draws E env budget (x >>= k) R := by
  constructor
  intro g henv hbudget
  apply Runs.bind
  refine (hx.runs g henv hbudget).mono fun a g' ha => ?_
  obtain ⟨hP, hsource⟩ := ha
  have hrest := (hk a hP).runs g' (hsource.env_eq.trans henv) (hsource.budget_eq.trans hbudget)
  exact hrest.mono fun b g'' hb => ⟨hb.1, hsource.trans hb.2⟩

theorem mono (h : Draws E env budget x P) (hP : ∀ a, P a → P' a) : Draws E env budget x P' :=
  ⟨fun g henv hbudget => (h.runs g henv hbudget).mono fun a _ ha => ⟨hP a ha.1, ha.2⟩⟩

theorem map {f : α → β} (hx : Draws E env budget x P) (h : ∀ a, P a → R (f a)) :
    Draws E env budget (f <$> x) R := by
  have hmap : f <$> x = x >>= fun a => Pure.pure (f a) := map_eq_pure_bind f x
  rw [hmap]
  exact hx.bind fun a ha => .pure (h a ha)

/-- A step after a look at the state. -/
theorem get_bind {k : Generator ρ → Build ρ β}
    (h : ∀ g, g.env = env → g.budget = budget → Draws E env budget (k g) R) :
    Draws E env budget (get >>= k) R := by
  constructor
  intro g henv hbudget
  exact Runs.bind (get_runs ((h g henv hbudget).runs g henv hbudget))

/-- A step after a result that is lifted. -/
theorem lift_bind {y : Except Fault α} {a : α} {k : α → Build ρ β} (hy : y = .ok a)
    (h : Draws E env budget (k a) R) : Draws E env budget (liftM y >>= k) R := by
  constructor
  intro g henv hbudget
  rw [hy]
  exact Runs.bind (Runs.ok rfl (h.runs g henv hbudget))

theorem ite {c : Prop} [Decidable c] {y : Build ρ α} (hx : c → Draws E env budget x P)
    (hy : ¬ c → Draws E env budget y P) : Draws E env budget (if c then x else y) P := by
  split
  · rename_i hc
    exact hx hc
  · rename_i hc
    exact hy hc

/-- A choice between two steps that the same step follows. -/
theorem ite_bind {c : Prop} [Decidable c] {y : Build ρ α} {k : α → Build ρ β}
    (hx : c → Draws E env budget x P) (hy : ¬ c → Draws E env budget y P)
    (hk : ∀ a, P a → Draws E env budget (k a) R) :
    Draws E env budget (if c then x >>= k else y >>= k) R :=
  ite (fun hc => (hx hc).bind hk) fun hc => (hy hc).bind hk

/-- A step one level deeper has one level less of the budget, and the level is given back. -/
theorem deeper (h : Draws E env (budget - 1) x P) : Draws E env budget (deeper x) P := by
  constructor
  intro g henv hbudget
  apply deeper_runs
  have hless : ({ g with exprDepth := g.exprDepth + 1 } : Generator ρ).budget = budget - 1 := by
    rw [← hbudget]
    exact (Nat.sub_sub _ _ 1).symm
  exact (h.runs { g with exprDepth := g.exprDepth + 1 } henv hless).mono fun a g' ha =>
    ⟨ha.1, ha.2.shallower⟩

/-- As many results as the step is repeated, each of them as one step gives it. -/
theorem times (hx : Draws E env budget x P) :
    ∀ n, Draws E env budget (Draw.times x n) fun as => as.length = n ∧ ∀ a ∈ as, P a
  | 0 => .pure (by simp)
  | n + 1 => by
      rw [Draw.times]
      refine hx.bind fun a ha => ?_
      refine (times hx n).bind fun as has => .pure ?_
      obtain ⟨hlen, hall⟩ := has
      exact ⟨by rw [List.length_cons, hlen], List.forall_mem_cons.2 ⟨ha, hall⟩⟩

/-- One result for each element, related to it. -/
theorem each {f : α → Build ρ β} {S : α → β → Prop} :
    ∀ {as : List α}, (∀ a ∈ as, Draws E env budget (f a) (S a)) →
      Draws E env budget (Draw.each f as) (List.Forall₂ S as)
  | [], _ => .pure .nil
  | a :: as, h => by
      rw [Draw.each]
      refine (h a List.mem_cons_self).bind fun b hb => ?_
      refine (each fun a' ha' => h a' (List.mem_cons_of_mem a ha')).bind fun bs hbs => ?_
      exact .pure (.cons hb hbs)

end Draws

end Build

end TypedPhp
