import TypedPhp.Proofs.Stmt.Footprint

set_option autoImplicit false

/-!
# The stack of jump targets

The generator decides from a stack of jump targets whether it may build a `break` or a `continue`.
Whatever a step builds, it leaves this stack as it found it, from every state and for every stack
(`Build.KeepsTargets`). So the stack is the same for all statements of a list.
-/

namespace TypedPhp.Build

variable {ρ α : Type}

/-- A step leaves the jump targets as it found them whenever it succeeds. -/
structure KeepsTargets (x : Build ρ α) : Prop where
  jumps_eq : ∀ {g : Generator ρ} {a : α} {g' : Generator ρ}, x g = .ok (a, g') →
    g'.jumps = g.jumps

/-- Steps of every size leave the jump targets as they found them: what is pushed around the body of
a loop or a case is popped after it. -/
def sameTargets : Footprint ρ :=
  .leaving Generator.jumps (fun _ _ => rfl) (fun _ _ => rfl) (fun _ _ _ _ => rfl)
    (fun g g' _ targets h => by
      change g'.jumps.drop targets.length = g.jumps
      rw [h]
      exact List.drop_left)
    (fun g g' _ h => by
      change g'.jumps.tail = g.jumps
      rw [h]
      rfl)

namespace KeepsTargets

variable {x : Build ρ α} {one : Build ρ (List Node)}

theorem of_respects (h : Respects sameTargets.inner x) : KeepsTargets x := ⟨h.of_ok⟩

theorem respects (h : KeepsTargets x) : Respects sameTargets.several x := ⟨h.jumps_eq⟩

variable [WordSource ρ]

theorem block (hone : KeepsTargets one) : KeepsTargets (block one) :=
  of_respects (Footprint.block hone.respects)

theorem condition (hone : KeepsTargets one) : KeepsTargets (condition one) :=
  of_respects (Footprint.condition hone.respects)

theorem loop (hone : KeepsTargets one) : KeepsTargets (loop one) :=
  of_respects (Footprint.loop hone.respects)

theorem caseBody (hone : KeepsTargets one) : KeepsTargets (caseBody one) :=
  of_respects (Footprint.caseBody hone.respects)

theorem switch (hone : KeepsTargets one) : KeepsTargets (switch one) :=
  of_respects (Footprint.switch hone.respects)

/-- One statement with any room leaves the jump targets as it found them. -/
theorem stmt (room : Nat) : KeepsTargets (stmt room : Build ρ (List Node)) :=
  of_respects (sameTargets.stmt room)

end KeepsTargets

end TypedPhp.Build
