import TypedPhp.Proofs.Expr.Formed
import TypedPhp.Proofs.Stmt.Sites

set_option autoImplicit false

/-!
# Expressions of statements are formed

The places, values and calls that simple statements are made of are formed expressions over what can
be read, so what a statement evaluates at its site is formed over the environment of the site
(`Stated.formed`).
-/

namespace TypedPhp

variable {env : Env} {b : Nat} {n : Node}

/-! ## Parts of statements -/

/-- A place is formed. -/
theorem Place.formed {t : Ty} (h : Place env t n) : env.Formed n := by
  cases h with
  | var hv _ => exact .var (Or.inl hv)
  | field _ _ hobject =>
      refine .one (.prop _ _ _) ?_
      rcases hobject with ⟨hc, rfl⟩ | ⟨-, hread⟩
      · exact Env.formed_this hc
      · exact hread.formed

section Castable

variable (hcast : env.symbols.Castable)

include hcast

/-- A first value of a variable is formed. -/
theorem Initial.formed {t : Ty} (ht : t.Storable) (h : Initial env b t n) : env.Formed n := by
  cases h with
  | value hx => exact hx.formed hcast trivial
  | call _ hf _ hx => exact hx.formed hcast (hcast _ hf)
  | @cast k x hk hx =>
      subst hk
      exact .one (.cast _ ht.castKeyword) (hx.formed hcast trivial).asOperand

theorem Dumps.formed (h : Dumps env b n) : env.Formed n := by
  cases h with
  | var hv _ => exact .callTwo (.name _) (.var (Or.inl hv))
  | value _ _ hx => exact .callTwo (.name _) (hx.formed hcast trivial)

end Castable

theorem Draw.isBinary_of_mem_compoundOps {t : Ty} {op : Op} (h : op ∈ Draw.compoundOps t) :
    op.isBinary = true := by
  unfold Draw.compoundOps at h
  split at h <;> simp at h <;> rcases h with rfl | rfl | rfl <;> rfl

/-- In another state of the same function the same functions are known. -/
theorem SameFunction.castable {g g' : Generator Unit} (h : SameFunction g g')
    (hg : g.symbols.Castable) : g'.symbols.Castable := by
  rw [h.symbols]
  exact hg

/-! ## Sites -/

variable {g : Generator Unit} {vars : List ScopeVar}

theorem Covers.known (h : Covers vars g) {v : ScopeVar} (hv : g.env.Known v) : v ∈ vars := by
  rcases hv with hv | ⟨c, hc, rfl⟩
  · exact h.visible v hv
  · exact h.this c hc

theorem Covers.formed (h : Covers vars g) (hn : g.env.Formed n) :
    n.Every (Node.Formed (· ∈ vars)) :=
  hn.mono fun _ hm => hm.mono fun _ => h.known

/-- The condition of a loop is formed where its counter is known. -/
theorem counterBelow_formed {counter : String} {bound : Int64} (h : ⟨counter, .int⟩ ∈ vars) :
    (Node.counterBelow counter bound).Every (Node.Formed (· ∈ vars)) := by
  refine .two (.binary _ _ _ rfl) (.one (.unary _ (by decide)) ?_) (.lit _)
  exact .var (v := ⟨counter, .int⟩) h

/-- A call is the expression that it evaluates. -/
theorem Node.uses_of_call (h : n.op = .call ∨ n.op = .methodCall) : n.uses = [n] := by
  obtain ⟨op, args, payload, type⟩ := n
  rcases h with h | h
  · obtain rfl : op = .call := h
    rfl
  · obtain rfl : op = .methodCall := h
    rfl

/-- An assignment to a place evaluates the value, and the place if it is a field. -/
theorem Place.uses_assign {t : Ty} {place x y : Node} (h : Place env t place)
    (hy : y ∈ (Node.assign place x).uses) : y = place ∨ y = x := by
  cases h with
  | var _ _ => exact Or.inr (List.mem_singleton.1 hy)
  | field _ _ _ =>
      rcases List.mem_cons.1 hy with rfl | hy
      · exact Or.inl rfl
      · exact Or.inr (List.mem_singleton.1 hy)

/-- What an assignment to a place evaluates is formed. -/
theorem Assigns.formed (hcast : env.symbols.Castable) {t : Ty} {place : Node}
    (hplace : Place env t place) (h : Assigns env b t place [n]) : ∀ x ∈ n.uses, env.Formed x := by
  cases h with
  | compound _ hx => exact forall_mem_pair hplace.formed (hx.formed hcast trivial)
  | value _ hx =>
      intro y hy
      rcases hplace.uses_assign hy with rfl | rfl
      · exact hplace.formed
      · exact hx.formed hcast trivial
  | constant hx =>
      intro y hy
      rcases hplace.uses_assign hy with rfl | rfl
      · exact hplace.formed
      · exact hx.constant.formed

/-- What a statement evaluates at its site is formed over the environment of the site. -/
theorem Stated.formed (hcast : g.symbols.Castable) (hg : Covers vars g) (h : Stated g vars n) :
    ∀ x ∈ n.uses, x.Every (Node.Formed (· ∈ vars)) := by
  cases h with
  | declaration _ ht _ hinit =>
      exact List.forall_mem_singleton.2 (hg.formed (hinit.formed hcast ht))
  | counter _ => exact List.forall_mem_singleton.2 (.lit _)
  | assignment hplace h => exact fun x hx => hg.formed (h.formed hcast hplace x hx)
  | dump h =>
      rw [Node.uses_of_call (Or.inl h.call_op)]
      exact List.forall_mem_singleton.2 (hg.formed (h.formed hcast))
  | echo h =>
      exact forall_mem_pair (hg.formed (h.formed hcast trivial)) (.lit _)
  | voidCall hf _ h =>
      rw [Node.uses_of_call h.call_op]
      exact List.forall_mem_singleton.2 (hg.formed (h.formed hcast (hcast _ hf)))
  | block body => exact nofun
  | ifThen _ h => exact List.forall_mem_singleton.2 (hg.formed (h.formed hcast trivial))
  | ifElse _ _ h => exact List.forall_mem_singleton.2 (hg.formed (h.formed hcast trivial))
  | whileLoop _ hcounter _ _ => exact List.forall_mem_singleton.2 (counterBelow_formed hcounter)
  | doWhile _ hcounter _ _ => exact List.forall_mem_singleton.2 (counterBelow_formed hcounter)
  | switch _ _ h _ => exact List.forall_mem_singleton.2 (hg.formed (h.formed hcast trivial))
  | case _ _ _ _ => exact List.forall_mem_singleton.2 (.lit _)
  | defaultCase body => exact nofun
  | breakJump => exact nofun
  | continueJump => exact nofun
  | returns h =>
      cases h with
      | void _ => exact nofun
      | value _ h => exact List.forall_mem_singleton.2 (hg.formed (h.formed hcast trivial))

end TypedPhp
