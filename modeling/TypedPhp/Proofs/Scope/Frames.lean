import Mathlib.Tactic.Common
import TypedPhp.Scope

set_option autoImplicit false

/-!
# Visible variables and frames

A search finds a visible variable, and a visible variable is one of the stored ones. A scope that
has only grown in its innermost frame gives the frame around it back when that frame is left.
-/

namespace TypedPhp.Scope

variable {s s' s'' : Scope} {v : ScopeVar}

/-! ## Visible variables -/

/-- What is not hidden is stored. -/
theorem mem_of_mem_unhidden : ∀ {seen vs}, v ∈ unhidden seen vs → v ∈ vs
  | _, [], h => h
  | seen, w :: vs, h => by
      rw [unhidden] at h
      split at h
      · exact List.mem_cons_of_mem w (mem_of_mem_unhidden h)
      · rcases List.mem_cons.1 h with rfl | h
        · exact List.mem_cons_self
        · exact List.mem_cons_of_mem w (mem_of_mem_unhidden h)

theorem mem_vars_of_mem_visible (h : v ∈ s.visible) : v ∈ s.vars := mem_of_mem_unhidden h

/-- What a search finds is not hidden and satisfies the condition. -/
theorem searchFrom_spec {p : ScopeVar → Bool} :
    ∀ {seen vs}, (searchFrom p seen vs).2 = some v → v ∈ unhidden seen vs ∧ p v = true
  | _, [], h => by simp [searchFrom] at h
  | seen, w :: vs, h => by
      -- The search and the list of what is not hidden skip the same variables.
      rw [searchFrom] at h
      rw [unhidden]
      split at h
      · rename_i hseen
        rw [if_pos hseen]
        exact searchFrom_spec h
      · rename_i hseen
        rw [if_neg hseen]
        split at h
        · rename_i hp
          cases h
          exact ⟨List.mem_cons_self, hp⟩
        · obtain ⟨hmem, hp⟩ := searchFrom_spec h
          exact ⟨List.mem_cons_of_mem w hmem, hp⟩

theorem find?_spec {p : ScopeVar → Bool} (h : s.find? p = some v) :
    v ∈ s.visible ∧ p v = true :=
  searchFrom_spec h

theorem findType?_spec {t : Ty} (h : s.findType? t = some v) :
    v ∈ s.visible ∧ v.type.identical t = true :=
  find?_spec h

/-! ## Growth of the innermost frame -/

/-- One scope is another with more variables in the innermost frame, each of which satisfies `P`. -/
structure Grown (P : ScopeVar → Prop) (s s' : Scope) : Prop where
  grown : ∃ added n rest, s.counts = n :: rest ∧
    s' = ⟨added ++ s.vars, (added.length + n) :: rest⟩ ∧ ∀ v ∈ added, P v

namespace Grown

variable {P Q : ScopeVar → Prop}

theorem refl (h : s.counts ≠ []) : Grown P s s := by
  obtain ⟨n, rest, hs⟩ := List.exists_cons_of_ne_nil h
  refine ⟨[], n, rest, hs, ?_, by simp⟩
  cases s
  simp_all

theorem counts_ne_nil (h : Grown P s s') : s'.counts ≠ [] := by
  obtain ⟨_, _, _, _, rfl, _⟩ := h
  simp

/-- One growth after another. -/
theorem trans (h : Grown P s s') (h' : Grown P s' s'') : Grown P s s'' := by
  obtain ⟨added, n, rest, hs, rfl, hP⟩ := h
  obtain ⟨added', n', rest', hs', rfl, hP'⟩ := h'
  simp only [List.cons.injEq] at hs'
  obtain ⟨rfl, rfl⟩ := hs'
  refine ⟨added' ++ added, n, rest, hs, ?_, ?_⟩
  · simp [Nat.add_assoc]
  · intro v hv
    rcases List.mem_append.1 hv with hv | hv
    · exact hP' v hv
    · exact hP v hv

theorem mono (h : Grown P s s') (hPQ : ∀ v, P v → Q v) : Grown Q s s' := by
  obtain ⟨added, n, rest, hs, hs', hP⟩ := h
  exact ⟨added, n, rest, hs, hs', fun v hv => hPQ v (hP v hv)⟩

theorem mem_vars (h : Grown P s s') (hv : v ∈ s'.vars) : v ∈ s.vars ∨ P v := by
  obtain ⟨added, n, rest, hs, rfl, hP⟩ := h
  rcases List.mem_append.1 hv with hv | hv
  · exact Or.inr (hP v hv)
  · exact Or.inl hv

/-- A frame that has only grown is left as if nothing had happened in it. -/
theorem leave_enter (h : Grown P s.enter s') : s'.leave = .ok s := by
  -- What was added is as much as the counter of the frame says, so dropping that many variables
  -- leaves those from before.
  obtain ⟨added, n, rest, hs, rfl, _⟩ := h
  simp only [enter, List.cons.injEq] at hs
  obtain ⟨rfl, rfl⟩ := hs
  simp [leave, enter]

end Grown

/-- A variable is added to the innermost frame. -/
theorem push_grown (h : s.counts ≠ []) (x : String) (t : Ty) :
    ∃ s', s.push x t = .ok s' ∧ s'.vars = ⟨x, t⟩ :: s.vars ∧ Grown (· = ⟨x, t⟩) s s' := by
  obtain ⟨n, rest, hs⟩ := List.exists_cons_of_ne_nil h
  refine ⟨⟨⟨x, t⟩ :: s.vars, (n + 1) :: rest⟩, by simp [push, hs], rfl, ?_⟩
  exact ⟨[⟨x, t⟩], n, rest, hs, by simp [Nat.add_comm], by simp⟩

end TypedPhp.Scope
