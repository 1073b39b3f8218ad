import TypedPhp.Proofs.Stmt.Footprint
import TypedPhp.Proofs.Stmt.Frames

set_option autoImplicit false

/-!
# The state around a step

From every state, for every source and on every stack, a step that returns leaves the state around
it intact (`Build.leaves_state`). An expression changes the source and nothing else. What opens
frames of its own may only advance the counters of names. A statement may do that, or add one
variable to the innermost frame, under the name that the counter has for it. Both depths are counted
up and down, frames and jump targets are pushed and popped again in pairs; nothing is known of the
state but that the step returns.
-/

namespace TypedPhp

variable {ρ : Type}

namespace Generator

/-- Only the source has changed, and the counters of names have advanced. -/
def OnlyCounters (g g' : Generator ρ) : Prop := Keeps g.view g'.view

/-- Only the source has changed, and either the counters of names have advanced or one variable,
named by the counter, was added to the innermost frame. -/
def OnlyVariable (g g' : Generator ρ) : Prop := Steps g.view g'.view

/-- In an open frame, only that frame has grown and only the counters have advanced. -/
def OnlyFrame (g g' : Generator ρ) : Prop := g.scope.counts ≠ [] → Advances g.view g'.view

end Generator

/-- What each step may do to the state around it, at every size. -/
def surroundings : Footprint ρ where
  inner := Generator.OnlyCounters
  single := Generator.OnlyVariable
  several := Generator.OnlyFrame
  inner_trans h h' := Keeps.trans h h'
  several_trans h h' hopen := (h hopen).trans (h' (h hopen).isOpen)
  inner_single h := .keeps h
  single_several h hopen := h.advances hopen
  drawn g _ := Keeps.refl g.view
  drawn_single _ h := h
  counter _ := ⟨rfl, Nat.le_refl _, Nat.le_succ _⟩
  declares _ ht hpush := .declares ht hpush
  encloses := @fun g g' s targets h hleave =>
    @Advances.enclosed g.view g'.view targets s (h (by simp [Scope.enter])) hleave
  target := @fun g g' target h => @Keeps.inTarget g.view g'.view target h

namespace Build

/-- A list of statements begins with what its first step has built; later steps add to it. -/
theorem repeated_appends {one : Build ρ (List Node)} {n : Nat} {g g' : Generator ρ}
    {ns : List Node} (h : repeated one (n + 1) g = .ok (ns, g')) :
    ∃ stmts g₁, one g = .ok (stmts, g₁) ∧ stmts <+: ns := by
  rw [repeated] at h
  obtain ⟨stmts, g₁, hone, h⟩ := Runs.ok_of_bind h
  refine ⟨stmts, g₁, hone, ?_⟩
  split at h
  · cases h
    exact List.prefix_rfl
  · obtain ⟨rest, g₂, -, h⟩ := Runs.ok_of_bind h
    cases h
    exact List.prefix_append stmts rest

variable (ρ) [WordSource ρ] (stack : Nat)

/-- What the steps of the building leave of the state around them, where statements are nested on
a stack. -/
structure LeavesState : Prop where
  value : ∀ t, Respects Generator.OnlySource (value t : Build ρ Node)
  constant : ∀ t, Respects Generator.OnlySource
    (draw fun env => Draw.constant env t : Build ρ Node)
  call : ∀ t, Respects Generator.OnlySource (callOfType t : Build ρ (Option Node))
  field : ∀ t, Respects Generator.OnlySource (fieldOf t : Build ρ (Option Node))
  block : Respects Generator.OnlyCounters (block (stmt stack : Build ρ (List Node)))
  condition : Respects Generator.OnlyCounters (condition (stmt stack : Build ρ (List Node)))
  loop : Respects Generator.OnlyCounters (loop (stmt stack : Build ρ (List Node)))
  switch : Respects Generator.OnlyCounters (switch (stmt stack : Build ρ (List Node)))
  caseBody : Respects Generator.OnlyCounters (caseBody (stmt stack : Build ρ (List Node)))
  kind : ∀ kind, Respects Generator.OnlyVariable
    (ofKind (stmt stack : Build ρ (List Node)) kind)
  substitute : Respects Generator.OnlyVariable (jumpSubstitute (stmt stack : Build ρ (List Node)))
  appends : ∀ {n g ns g'}, repeated (stmt stack : Build ρ (List Node)) (n + 1) g = .ok (ns, g') →
    ∃ stmts g₁, stmt stack g = .ok (stmts, g₁) ∧ stmts <+: ns
  statement : Respects Generator.OnlyVariable (stmt stack : Build ρ (List Node))

/-- Every step of the building leaves the state around it intact, from every state and for every
source on which it returns: expressions change the source only, what opens frames of its own steps
the counters of names at most, and a statement adds at most one variable, named by its counter, to
the innermost frame. -/
theorem leaves_state : LeavesState ρ stack := by
  have hstmt : Respects Generator.OnlyVariable (stmt stack : Build ρ (List Node)) :=
    surroundings.stmt stack
  have hone : Respects surroundings.several (stmt stack : Build ρ (List Node)) :=
    hstmt.mono fun _ _ => surroundings.single_several
  exact {
    value := fun t => SourceOnly.value t
    constant := fun t => SourceOnly.draw _
    call := fun t => SourceOnly.callOfType t
    field := fun t => SourceOnly.fieldOf t
    block := Footprint.block hone
    condition := Footprint.condition hone
    loop := Footprint.loop hone
    switch := Footprint.switch hone
    caseBody := Footprint.caseBody hone
    kind := fun kind => Footprint.ofKind (F := surroundings) hone kind
    substitute := Footprint.jumpSubstitute (F := surroundings) hone
    appends := repeated_appends
    statement := hstmt }

/-- A loop over a block with a declaration, with room for one more level: both counters advance, and
the scope and the depths are as before. -/
theorem leaves_state_while :
    let g := { Generator.bare 26 with stmtDepth := 2 }
    ∃ ns g', stmt 2 g = .ok (ns, g') ∧ ns.map Node.op = [.assign, .whileLoop] ∧
      g'.nextVar = 1 ∧ g'.nextCounter = 1 ∧ g.OnlyVariable g' := by
  intro g
  have hany : (stmt 2 g).toOption.any (fun r =>
      r.1.map Node.op == [.assign, .whileLoop] && r.2.nextVar == 1 && r.2.nextCounter == 1) =
      true := by
    decide +kernel
  obtain ⟨ns, g', hrun, hcheck⟩ := Runs.exists_of_check hany
  simp only [Bool.and_eq_true, beq_iff_eq] at hcheck
  obtain ⟨⟨hops, hvar⟩, hcounter⟩ := hcheck
  exact ⟨ns, g', hrun, hops, hvar, hcounter, (leaves_state Scripted.Stream 2).statement.of_ok hrun⟩

end Build

end TypedPhp
