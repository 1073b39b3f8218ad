import TypedPhp.Proofs.Read.Grouping
import TypedPhp.Proofs.Read.Spelled

set_option autoImplicit false

/-!
# Operand-safe expressions

The writer adds no parentheses, so a tree is read back as it was only if its operands keep together
by themselves. In an operand-safe tree they do: what stands beside an operator is a primary
expression, a cast, a number without a sign or a step after a variable, and the operators that bind
least stand only in parentheses of their own.

What is read knows no static types, no sign of a number and no literal strings: `Node.strip` is the
tree without them. The tokens of every operand-safe expression are read as this tree
(`Node.Every.readable`).
-/

namespace TypedPhp

open Read (Token Leaf Term IsAtom IsLinked IsOperand IsExpr joinParts)

/-! ## Trees without types and signs -/

/-- A tree under a minus, if it has one. -/
def Read.Term.signed (negative : Prop) [Decidable negative] (x : Term) : Term :=
  if negative then .ofArgs .negation [x] else x

/-- A literal as it is read: the minus of a number is an operator, a float is what is written of it,
and a string has at most one part. -/
def Literal.strip : Literal → Term
  | .bool v => .atom .boolLit (.bool v)
  | .int v => .signed (v.toInt < 0) (.atom .intLit (.int v.toInt.natAbs))
  | .float x =>
    if x.isNaN then .atom .floatLit (.float "NAN".toList)
    else
      .signed x.isNegative
        (.atom .floatLit (.float (Double.formatMagnitude .literal x.magnitude)))
  | .string bytes => .atom .interpolated (.string (joinParts [.text bytes]))

namespace Node

/-- A node as it is read, over its children as they are read. -/
def stripOver (n : Node) (args : List Term) : Term :=
  match n.op with
  | .boolLit | .intLit | .floatLit | .stringLit =>
    match n.literal? with
    | some l => l.strip
    | none => .ofArgs n.op args
  | .interpolated => .atom .interpolated (.string (joinParts (n.args.map part)))
  | .cast => .mk .cast args ((n.type.bind Ty.castKeyword?).map .cast)
  | op => .mk op args (n.ident?.map .name)

mutual

/-- The tree that is left of an expression without static types, signs of numbers and literal
strings. -/
def strip : Node → Term
  | .mk op args payload type => stripOver (.mk op args payload type) (stripEach args)

/-- The trees that are left of several expressions. -/
def stripEach : List Node → List Term
  | [] => []
  | n :: ns => strip n :: stripEach ns

end

/-- The trees that are left of several expressions, one by one. -/
theorem stripEach_eq_map : ∀ ns : List Node, stripEach ns = ns.map strip
  | [] => rfl
  | n :: ns => by
      rw [stripEach, stripEach_eq_map ns]
      rfl

end Node

/-! ## Operand-safe trees -/

/-- Whether an operator is one of those that are kept in parentheses: the logical words, the ternary
operator and `??`. -/
def Op.isLow : Op → Bool
  | .andWord | .orWord | .xorWord | .ternary | .nullCoalesce => true
  | _ => false

namespace Node

/-- A node that may be an operand without parentheses. -/
def Bare (n : Node) : Prop := n.isSimple = true ∨ n.op = .postInc

/-- The children that an operator stands beside. -/
def operands (n : Node) : List Node :=
  if n.op.isBinary then n.args
  else
    match n.op with
    | .not | .bitNot | .unaryPlus | .negation | .cast => n.args
    | .ternary => n.args.take 1
    | _ => []

/-- The operators of operands of a power. -/
def powerOps : List Op := [.var, .parens, .call, .methodCall, .prop, .index, .intLit]

/-- A node whose children keep together beside it. -/
structure Safe (n : Node) : Prop where
  /-- The node has the children and the payload of its operator. -/
  spelled : n.Spelled
  operands : ∀ x ∈ n.operands, x.Bare
  powers : n.op = .exp → ∀ x ∈ n.args, x.isSimple = true ∧ x.op ∈ powerOps
  steps : n.op ∈ [.preInc, .preDec, .postInc, .postDec] → ∀ x ∈ n.args, x.op = .var
  low : n.op ≠ .parens → ∀ x ∈ n.args, x.op.isLow = false
  unassigned : n.op ≠ .assign ∧ n.op ≠ .assignModify
  receiver : n.op = .prop ∨ n.op = .methodCall → ∀ x ∈ n.args.head?, x.op = .var ∨ x.op = .parens
  callee : n.op = .call → ∀ x ∈ n.args.head?, x.op = .name
  base : n.op = .index → ∀ x ∈ n.args.head?, x.op = .var
  /-- The least integer has no literal, as its minus would be an operator on a larger one. -/
  literal : n.literal? ≠ some (.int Int64.minValue)

/-- An expression whose operands keep together. -/
def OperandSafe (n : Node) : Prop := n.Every Safe ∧ n.op.isLow = false

/-! ## Nodes that are read -/

theorem tokens_eq (n : Node) : n.tokens = n.spell (n.args.map tokens) := by
  cases n with
  | mk op args payload type =>
      rw [tokens, tokensEach_eq_map]
      rfl

/-- What is left of a node is over what is left of its children. -/
theorem strip_eq (n : Node) : n.strip = n.stripOver (n.args.map strip) := by
  cases n with
  | mk op args payload type =>
      rw [strip, stripEach_eq_map]
      rfl

/-- The operators of atoms that others are linked to. -/
def rootOps : List Op := [.var, .parens, .name]

/-- The tokens of an expression are read as what is left of it, as far as its operator allows. -/
structure Readable (n : Node) : Prop where
  atom : rootOps.contains n.op = true → IsAtom n.tokens n.strip
  linked : n.Bare → n.op ≠ .cast → IsLinked n.tokens n.strip
  operand : n.Bare → IsOperand n.tokens n.strip
  expr : IsExpr (if n.op.isLow then 0 else 6) n.tokens n.strip

namespace Readable

variable {n : Node}

theorem of_atom (h : IsAtom (n.spell (n.args.map tokens)) (n.stripOver (n.args.map strip))) :
    n.Readable := by
  rw [← tokens_eq, ← strip_eq] at h
  exact ⟨fun _ => h, fun _ _ => h.linked, fun _ => h.linked.operand, h.linked.operand.expr _⟩

/-- A node that is read as an atom with links. -/
theorem of_linked (hop : rootOps.contains n.op = false)
    (h : IsLinked (n.spell (n.args.map tokens)) (n.stripOver (n.args.map strip))) : n.Readable := by
  rw [← tokens_eq, ← strip_eq] at h
  exact ⟨fun hroot => absurd (hroot.symm.trans hop) nofun, fun _ _ => h, fun _ => h.operand,
    h.operand.expr _⟩

/-- A node that is read as an operand. -/
theorem of_operand (hop : rootOps.contains n.op = false) (hbare : n.Bare → n.op = .cast)
    (h : IsOperand (n.spell (n.args.map tokens)) (n.stripOver (n.args.map strip))) :
    n.Readable := by
  rw [← tokens_eq, ← strip_eq] at h
  exact ⟨fun hroot => absurd (hroot.symm.trans hop) nofun,
    fun hn hcast => absurd (hbare hn) hcast, fun _ => h, h.expr _⟩

/-- A node that is read as an expression only. -/
theorem of_expr {max : Nat} (hop : rootOps.contains n.op = false) (hbare : ¬ n.Bare)
    (hmax : n.op.isLow = false → 6 ≤ max)
    (h : IsExpr max (n.spell (n.args.map tokens)) (n.stripOver (n.args.map strip))) :
    n.Readable := by
  rw [← tokens_eq, ← strip_eq] at h
  refine ⟨fun hroot => absurd (hroot.symm.trans hop) nofun, fun hn => absurd hn hbare,
    fun hn => absurd hn hbare, ?_⟩
  split
  · exact h.mono (Nat.zero_le _)
  · rename_i hlow
    exact h.mono (hmax (Bool.eq_false_iff.2 hlow))

theorem inner (h : n.Readable) : IsExpr 0 n.tokens n.strip := h.expr.mono (Nat.zero_le _)

theorem each {ns : List Node} (h : ∀ n ∈ ns, n.Readable) :
    List.Forall₂ (IsExpr 0) (ns.map tokens) (ns.map strip) := by
  rw [List.forall₂_map_left_iff, List.forall₂_map_right_iff, List.forall₂_same]
  exact fun n hn => (h n hn).inner

end Readable

end Node

end TypedPhp
