import TypedPhp.Proofs.Syntax.Subterms

set_option autoImplicit false

/-!
# Nodes below their ancestors

What a node may be can depend on what it stands in. `Node.Occurs` leads to a node of some trees
through all of its ancestors. Every node of the trees occurs in this way, and nothing else does
(`mem_subtermsList_iff_occurs`). Statements that stand in a statement are sites as it is
(`Site.nested`), so a condition on nodes that depends on what they hold can be proved from site to
site (`Sited.every_of_holds`).
-/

namespace TypedPhp

namespace Node

/-- A node occurs in some trees below its ancestors, its parent first. -/
inductive Occurs (roots : List Node) : List Node → Node → Prop where
  | root {n : Node} : n ∈ roots → Occurs roots [] n
  | child {above : List Node} {n x : Node} : Occurs roots above n → x ∈ n.args →
      Occurs roots (n :: above) x

variable {roots above : List Node} {n x : Node}

/-- What occurs in some trees is a node of them. -/
theorem Occurs.mem_subtermsList (h : Occurs roots above n) : n ∈ subtermsList roots := by
  induction h with
  | root hn => exact Node.mem_subtermsList.2 ⟨_, hn, self_mem_subterms _⟩
  | child _ hx ih =>
      obtain ⟨r, hr, hn⟩ := Node.mem_subtermsList.1 ih
      have hsub := mem_subterms_of_args hx (self_mem_subterms _)
      exact Node.mem_subtermsList.2 ⟨r, hr, mem_subterms_trans hn hsub⟩

/-- What stands in a node that occurs occurs too. -/
theorem Occurs.subterm (h : Occurs roots above n) {m : Node} (hm : m ∈ n.subterms) :
    ∃ above', Occurs roots above' m := by
  induction n using inductionOn generalizing above with
  | node op args payload type ih =>
      rw [subterms] at hm
      rcases List.mem_cons.1 hm with rfl | hm
      · exact ⟨above, h⟩
      · obtain ⟨x, hx, hm⟩ := Node.mem_subtermsList.1 hm
        exact ih x hx (.child h hx) hm

/-- The nodes of some trees are those that occur in them. -/
theorem mem_subtermsList_iff_occurs : n ∈ subtermsList roots ↔ ∃ above, Occurs roots above n := by
  constructor
  · intro hn
    obtain ⟨r, hr, hn⟩ := Node.mem_subtermsList.1 hn
    exact (Occurs.root hr).subterm hn
  · rintro ⟨above, h⟩
    exact h.mem_subtermsList

end Node

namespace Site

variable {vars vars' : List ScopeVar} {n s : Node} {ns body : List Node}

/-- The reading of a list comes to every statement of it. -/
theorem of_mem (vars : List ScopeVar) (h : s ∈ ns) : ∃ vars', Site vars ns vars' s := by
  induction ns generalizing vars with
  | nil => cases h
  | cons n ns ih =>
      rcases List.mem_cons.1 h with rfl | h
      · exact ⟨vars, .head vars s ns⟩
      · obtain ⟨vars', hs⟩ := ih (introduce vars n) h
        exact ⟨vars', .tail hs⟩

/-- The reading of a list comes to every statement inside one to which it comes. -/
theorem nested (h : Site vars ns vars' n) (hbody : body ∈ n.bodies) (hs : s ∈ body) :
    ∃ vars'', Site vars ns vars'' s := by
  induction h with
  | head vars n ns =>
      obtain ⟨vars'', hs⟩ := of_mem vars hs
      exact ⟨vars'', .inner hbody hs⟩
  | inner hmem _ ih =>
      obtain ⟨vars'', hs⟩ := ih hbody
      exact ⟨vars'', .inner hmem hs⟩
  | tail _ ih =>
      obtain ⟨vars'', hs⟩ := ih hbody
      exact ⟨vars'', .tail hs⟩

end Site

/-- A condition that depends on what a node holds is one on all nodes of a statement list, if
statements may hold what they evaluate, what they assign and the statements inside them. -/
theorem Sited.every_of_holds {P R : Node → Prop} {H : Node → Node → Prop}
    (hnode : ∀ s, P s → (∀ x ∈ s.args, H s x) → R s)
    (huses : ∀ s, P s → ∀ x ∈ s.uses, x.Every R ∧ H s x)
    (hassign : ∀ s, P s → s.op = .assign → ∀ x ∈ s.args, x.Every R ∧ H s x)
    (hbodies : ∀ s, P s → ∀ body ∈ s.bodies, ∀ x ∈ body, P x → H s x)
    {vars : List ScopeVar} {ns : List Node} (h : Sited (fun _ => P) vars ns) :
    ∀ n ∈ ns, n.Every R := by
  -- The statements inside a statement are sites too, so what holds of those holds of them.
  have hnested : Sited (fun _ s => P s ∧ ∀ body ∈ s.bodies, ∀ x ∈ body, P x) vars ns := by
    intro vars' s hs
    refine ⟨h vars' s hs, fun body hbody x hx => ?_⟩
    obtain ⟨vars'', hx⟩ := hs.nested hbody hx
    exact h vars'' x hx
  refine hnested.every fun _ s hs => ?_
  obtain ⟨hs, hinner⟩ := hs
  refine ⟨?_, fun x hx => (huses s hs x hx).1, fun hop x hx _ => (hassign s hs hop x hx).1⟩
  by_cases hself : s ∈ s.uses
  · exact (huses s hs s hself).1 s s.self_mem_subterms
  · refine hnode s hs fun x hx => ?_
    rcases Node.child_covered hx with hmem | huse | ⟨body, hbody, hmem⟩ | ⟨hop, -⟩
    · exact absurd hmem hself
    · exact (huses s hs x huse).2
    · exact hbodies s hs body hbody x hmem (hinner body hbody x hmem)
    · exact (hassign s hs hop x hx).2

end TypedPhp
