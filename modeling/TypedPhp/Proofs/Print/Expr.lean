import TypedPhp.Proofs.Syntax.Formed

set_option autoImplicit false

/-!
# Formed expressions are written

The writer puts the text of a node together from the texts of its children. At a complete node it
finds every child, name and token that it needs, so an expression of complete nodes is written
whatever its depth (`Node.Every.succeeds`). Formed nodes are complete.
-/

namespace TypedPhp.Print

/-- The expression is written without a fault. -/
def Succeeds (x : Written) : Prop := ∃ text, x = .ok text

theorem Succeeds.bind {x : Written} {k : List Char → Written} (hx : Succeeds x)
    (hk : ∀ text, Succeeds (k text)) : Succeeds (x >>= k) := by
  obtain ⟨text, rfl⟩ := hx
  exact hk text

theorem Succeeds.pure (text : List Char) : Succeeds (Pure.pure text) := ⟨text, rfl⟩

theorem ok_of_bind {α β : Type} {x : Except Fault α} {k : α → Except Fault β} {b : β}
    (h : x >>= k = .ok b) : ∃ a, x = .ok a ∧ k a = .ok b := by
  cases x with
  | error fault => cases h
  | ok a => exact ⟨a, rfl, h⟩

theorem exprEach_eq_map : ∀ args : List Node, exprEach args = args.map expr
  | [] => rfl
  | n :: ns => by
      rw [exprEach, exprEach_eq_map ns]
      rfl

/-- Texts that are all written are separated by commas. -/
theorem commaList_succeeds : ∀ {parts : List Written}, (∀ x ∈ parts, Succeeds x) →
    Succeeds (commaList parts)
  | [], _ => .pure _
  | [x], h => h x List.mem_cons_self
  | x :: y :: rest, h => by
      rw [commaList]
      · refine (h x List.mem_cons_self).bind fun head => ?_
        refine (commaList_succeeds fun z hz => h z (List.mem_cons_of_mem x hz)).bind fun tail => ?_
        exact .pure _
      · simp

/-- The child at a place is written if every child is. -/
theorem child_succeeds {parts : List Written} {i : Nat} (hi : i < parts.length)
    (h : ∀ x ∈ parts, Succeeds x) : Succeeds (child parts i) := by
  obtain ⟨text, htext⟩ := h parts[i] (List.getElem_mem hi)
  refine ⟨text, ?_⟩
  rw [child, elemAt, List.getElem?_eq_getElem hi]
  exact htext

theorem needToken_binary {op : Op} (h : op.isBinary = true) : Succeeds (needToken op) := by
  cases op <;> first | exact ⟨_, rfl⟩ | cases h

theorem needToken_unary {op : Op} (h : op ∈ Op.unary) : Succeeds (needToken op) := by
  have hall : ∀ op ∈ Op.unary, op.token?.isSome = true := by decide
  obtain ⟨token, htoken⟩ := Option.isSome_iff_exists.1 (hall op h)
  exact ⟨token.toList, by rw [needToken, htoken]; rfl⟩

/-- The parts of an interpolated string are written. -/
theorem interpolation_succeeds : ∀ {ns : List Node},
    (∀ p ∈ ns, p.op = .var ∨ ∃ bytes, p.literal? = some (.string bytes)) →
    (∀ p ∈ ns, Succeeds (expr p)) → Succeeds (interpolation ns (ns.map expr))
  | [], _, _ => .pure _
  | n :: ns, hparts, hwritten => by
      have hrest : Succeeds (interpolation ns (ns.map expr)) := by
        apply interpolation_succeeds
        · exact fun p hp => hparts p (List.mem_cons_of_mem n hp)
        · exact fun p hp => hwritten p (List.mem_cons_of_mem n hp)
      have htail : ∀ head, Succeeds (do
          let rest ← interpolation ns (ns.map expr)
          Pure.pure (head ++ rest)) := fun head => hrest.bind fun rest => .pure _
      rw [List.map_cons, interpolation]
      by_cases hvar : n.op = .var
      · rw [if_pos hvar]
        exact (hwritten n List.mem_cons_self).bind fun v => htail _
      · obtain ⟨bytes, hbytes⟩ := (hparts n List.mem_cons_self).resolve_left hvar
        rw [if_neg hvar, hbytes]
        exact htail _

/-! ## Nodes with operands -/

section Operands

variable {op : Op} {x y : Node} {parts : List Written}

theorem assemble_cast {t : Ty} {keyword : String} (h : t.castKeyword? = some keyword) :
    assemble (.mk .cast [x] none (some t)) parts = (do
      let text ← child parts 0
      return '(' :: (keyword.toList ++ ')' :: text)) := by
  simp [assemble, Node.op, Node.type, h]

/-- A prefix operator stands before the operand. -/
theorem assemble_signed {type : Option Ty}
    (h : op ∈ Op.leading) : assemble (.mk op [x] none type) parts = (do
      let sign ← needToken op
      let text ← child parts 0
      return signed sign text) := by
  revert h
  cases op <;> simp [assemble, Node.op, Op.leading]

/-- An infix operator stands between the operands. -/
theorem assemble_binary {type : Option Ty} (h : op.isBinary = true) :
    assemble (.mk op [x, y] none type) parts = (do
      let left ← child parts 0
      let token ← needToken op
      let right ← child parts 1
      return left ++ ' ' :: (token ++ ' ' :: right)) := by
  cases op <;> first | rfl | cases h

/-- A node with one operand is written if the operand is. -/
theorem unary_succeeds {type : Option Ty} (h : op ∈ Op.unary) (hx : Succeeds (child parts 0)) :
    Succeeds (assemble (.mk op [x] none type) parts) := by
  have htoken := needToken_unary h
  rcases Op.unary_cases h with rfl | rfl | hleading
  · exact hx.bind fun _ => htoken.bind fun _ => .pure _
  · exact hx.bind fun _ => htoken.bind fun _ => .pure _
  · rw [assemble_signed hleading]
    exact htoken.bind fun _ => hx.bind fun _ => .pure _

end Operands

/-! ## Expressions -/

/-- A complete node is written if its children are. -/
theorem assemble_succeeds {n : Node} (h : n.Complete) (hargs : ∀ x ∈ n.args, Succeeds (expr x)) :
    Succeeds (assemble n (n.args.map expr)) := by
  have hparts : ∀ x ∈ n.args.map expr, Succeeds x := by
    intro x hx
    obtain ⟨y, hy, rfl⟩ := List.mem_map.1 hx
    exact hargs y hy
  have hchild : ∀ i, i < n.args.length → Succeeds (child (n.args.map expr) i) :=
    fun i hi => child_succeeds (by simpa using hi) hparts
  have htail : Succeeds (commaList ((n.args.map expr).drop 1)) :=
    commaList_succeeds fun x hx => hparts x (List.mem_of_mem_drop hx)
  -- What is looked up in each case is exactly what the node is complete with.
  cases h with
  | parens x type => exact (hchild 0 (by simp [Node.args])).bind fun _ => .pure _
  | literal l type => cases l <;> exact .pure _
  | null type => exact .pure _
  | var s type => exact .pure _
  | name s type => exact .pure _
  | arrayLit elems type => exact (commaList_succeeds hparts).bind fun _ => .pure _
  | tupleLit elems type => exact (commaList_succeeds hparts).bind fun _ => .pure _
  | interpolated type h => exact (interpolation_succeeds h hargs).bind fun _ => .pure _
  | new c type => exact .pure _
  | prop object field type => exact (hchild 0 (by simp [Node.args])).bind fun _ => .pure _
  | call callee args type =>
      exact (hchild 0 (by simp [Node.args])).bind fun _ => htail.bind fun _ => .pure _
  | methodCall object method args type =>
      exact (hchild 0 (by simp [Node.args])).bind fun _ => htail.bind fun _ => .pure _
  | index x key type =>
      refine (hchild 0 (by simp [Node.args])).bind fun _ => ?_
      exact (hchild 1 (by simp [Node.args])).bind fun _ => .pure _
  | cast x hkeyword =>
      obtain ⟨keyword, hkeyword⟩ := Option.isSome_iff_exists.1 hkeyword
      rw [assemble_cast hkeyword]
      exact (hchild 0 (by simp [Node.args])).bind fun _ => .pure _
  | ternary cond x y type =>
      refine (hchild 0 (by simp [Node.args])).bind fun _ => ?_
      refine (hchild 1 (by simp [Node.args])).bind fun _ => ?_
      exact (hchild 2 (by simp [Node.args])).bind fun _ => .pure _
  | unary x type hop => exact unary_succeeds hop (hchild 0 (by simp [Node.args]))
  | binary x y type hop =>
      rw [assemble_binary hop]
      refine (hchild 0 (by simp [Node.args])).bind fun _ => ?_
      refine (needToken_binary hop).bind fun _ => ?_
      exact (hchild 1 (by simp [Node.args])).bind fun _ => .pure _
  | assign lhs rhs type =>
      refine (hchild 0 (by simp [Node.args])).bind fun _ => ?_
      exact (hchild 1 (by simp [Node.args])).bind fun _ => .pure _
  | assignModify lhs rhs type hop =>
      refine (hchild 0 (by simp [Node.args])).bind fun _ => ?_
      refine (needToken_binary hop).bind fun _ => ?_
      exact (hchild 1 (by simp [Node.args])).bind fun _ => .pure _

end TypedPhp.Print

namespace TypedPhp

open Print (Succeeds)

/-- An expression of complete nodes is written. -/
theorem Node.Every.succeeds : ∀ {n : Node}, n.Every Node.Complete → Succeeds (Print.expr n)
  -- The recursion is that of the writer, from a node to its children.
  | .mk op args payload type, h => by
      rw [Print.expr, Print.exprEach_eq_map]
      apply Print.assemble_succeeds h.root
      intro x hx
      have hx : x ∈ args := hx
      exact Node.Every.succeeds (h.child hx)

/-- An expression of formed nodes is written. -/
theorem Node.Every.written {known : ScopeVar → Prop} {n : Node} (h : n.Every (Node.Formed known)) :
    Succeeds (Print.expr n) :=
  (h.mono fun _ => Node.Formed.complete).succeeds

end TypedPhp
