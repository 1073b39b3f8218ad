import TypedPhp.Proofs.Expr.Formed
import TypedPhp.Proofs.Read.OperandSafe

set_option autoImplicit false

/-!
# Parentheses of generated expressions

The writer adds no parentheses, so the generator has to supply those that an expression needs.
`Node.Bracketed` is the condition on a node with its children: what stands beside an operator is
simple, and what binds least is in parentheses. `Node.Tidy` says that it holds throughout an
expression, which needs no parentheses itself. Every derived expression is tidy (`Derives.tidy`), if
what can be read and passed has values that can be written.
-/

namespace TypedPhp

/-! ## Nodes with their children -/

/-- Whether an operator assigns. -/
def Op.assigns : Op → Bool
  | .assign | .assignModify => true
  | _ => false

/-- The operators that stand before an operand, apart from casts. -/
def Op.prefixes : List Op := [.not, .bitNot, .unaryPlus, .negation]

/-- The operators of expressions that ask nothing of their children. -/
def Op.isFree : Op → Bool
  | .parens | .null | .boolLit | .intLit | .floatLit | .stringLit | .arrayLit | .tupleLit | .var
  | .name | .new => true
  | _ => false

namespace Node

/-- The children of a node are of the kinds that its operator asks for, beyond being simple, and
a cast is to a scalar kind that has literals. -/
def Suited (n : Node) : Prop :=
  match n.op with
  | .exp => ∀ x ∈ n.args, x.op ∈ powerOps
  | .prop | .methodCall => ∃ x rest, n.args = x :: rest ∧ (x.op = .var ∨ x.op = .parens)
  | .call => ∃ x rest, n.args = x :: rest ∧ x.op = .name
  | .index => ∃ x key, n.args = [x, key] ∧ x.op = .var
  | .cast => ∃ t, n.type = some t ∧ t.Literate
  | .interpolated => ∀ x ∈ n.args, x.op = .var ∨ ∃ bytes, x = .stringLit bytes
  | .preInc | .preDec | .postInc | .postDec => ∀ x ∈ n.args, x.op = .var
  | _ => True

/-- A node of an expression keeps its children apart: those that it stands beside are simple,
and what binds least is in parentheses. -/
structure Bracketed (n : Node) : Prop where
  formed : n.Formed fun _ => True
  operands : ∀ x ∈ n.operands, x.isSimple = true
  suited : n.Suited
  writable : n.Writable
  low : n.op ≠ .parens → ∀ x ∈ n.args, x.op.isLow = false
  unassigned : n.op.assigns = false

/-- An expression is tidy: its nodes keep their children apart, and it does not bind least
itself. -/
structure Tidy (n : Node) : Prop where
  every : n.Every Bracketed
  low : n.op.isLow = false

/-- A tidy expression that may be an operand. -/
structure Operand (n : Node) : Prop where
  tidy : n.Tidy
  simple : n.isSimple = true

/-! ## Trees of bracketed nodes -/

variable {n x y z : Node} {op : Op} {args : List Node} {payload : Option Payload}
  {type : Option Ty}

theorem operands_of_isBinary (h : n.op.isBinary = true) : n.operands = n.args := if_pos h

/-- A binary operator asks nothing more of its operands, unless it is a power. -/
theorem Suited.of_isBinary (h : n.op.isBinary = true) (hexp : n.op ≠ .exp) : n.Suited := by
  obtain ⟨op, args, payload, type⟩ := n
  cases op <;> first | exact trivial | exact absurd rfl hexp | cases h

theorem assigns_of_isBinary (h : op.isBinary = true) : op.assigns = false := by
  cases op <;> first | rfl | cases h

/-- What is an operand of a power as it is, is simple and of a few operators. -/
theorem asPowerOperand_cases (n : Node) :
    (n.asPowerOperand = n ∧ n.isSimple = true ∧ n.op ∈ powerOps) ∨
      n.asPowerOperand = n.parens := by
  obtain ⟨op, args, payload, type⟩ := n
  by_cases hint : op = .intLit
  · subst hint
    -- A number is an operand of a power as it is any other.
    have hsame : (mk .intLit args payload type).asPowerOperand =
        (mk .intLit args payload type).asOperand := rfl
    rw [hsame, asOperand]
    split
    · rename_i hsimple
      exact Or.inl ⟨rfl, hsimple, show Op.intLit ∈ powerOps by decide⟩
    · exact Or.inr rfl
  · by_cases hop : op ∈ powerOps
    · refine Or.inl ⟨?_, ?_, hop⟩ <;> revert hop <;> cases op <;> first
        | exact fun _ => rfl
        | exact fun hop => absurd hop (by decide)
        | exact absurd rfl hint
    · right
      cases op <;> first
        | rfl
        | exact absurd rfl hint
        | exact absurd (by decide) hop

theorem Bracketed.of_isFree (hop : n.op.isFree = true) (hn : n.Formed fun _ => True)
    (hw : n.Writable)
    (hlow : n.op ≠ .parens → ∀ x ∈ n.args, x.op.isLow = false) : n.Bracketed := by
  obtain ⟨op, args, payload, type⟩ := n
  cases op <;> cases hop <;> exact ⟨hn, nofun, trivial, hw, hlow, rfl⟩

/-- A node between two operands. -/
theorem Every.operator (hop : op.isBinary = true) (hexp : op ≠ .exp) (hx : x.Operand)
    (hy : y.Operand) : Every Bracketed (mk op [x, y] none type) := by
  refine .two ⟨.binary _ _ _ hop, ?_, .of_isBinary hop hexp, nofun, ?_, assigns_of_isBinary hop⟩
    hx.tidy.every hy.tidy.every
  · rw [operands_of_isBinary (show (mk op [x, y] none type).op.isBinary = true from hop)]
    exact forall_mem_pair hx.simple hy.simple
  · exact fun _ => forall_mem_pair hx.tidy.low hy.tidy.low

/-- A conditional expression. -/
theorem Every.ternary (hx : x.Operand) (hy : y.Tidy) (hz : z.Tidy) :
    Every Bracketed (.ternary x y z) := by
  have hargs : ∀ w ∈ [x, y, z], w.Tidy :=
    List.forall_mem_cons.2 ⟨hx.tidy, forall_mem_pair hy hz⟩
  refine .node ⟨.ternary _ _ _, ?_, trivial, nofun, fun _ w hw => (hargs w hw).low, rfl⟩
    fun w hw => (hargs w hw).every
  exact List.forall_mem_singleton.2 hx.simple

theorem Operand.parens (h : x.Every Bracketed) : Operand (.mk .parens [x] none type) :=
  ⟨⟨.one (.of_isFree rfl (.parens _ _) nofun (absurd rfl)) h, rfl⟩, rfl⟩

namespace Tidy

theorem node (hop : op.isFree = true)
    (hn : (Node.mk op args payload type).Formed fun _ => True)
    (hw : (Node.mk op args payload type).Writable) (h : ∀ x ∈ args, x.Tidy) :
    Tidy (.mk op args payload type) := by
  refine ⟨.node (.of_isFree hop hn hw fun _ x hx => (h x hx).low) fun x hx => (h x hx).every, ?_⟩
  cases op <;> first | rfl | cases hop

theorem leaf (hop : op.isFree = true) (hn : (Node.mk op [] payload type).Formed fun _ => True)
    (hw : (Node.mk op [] payload type).Writable) : Tidy (.mk op [] payload type) :=
  node hop hn hw nofun

theorem lit {l : Literal} (h : l ≠ .int Int64.minValue) : (Node.lit l).Tidy := by
  have hw := lit_writable h
  have hn : (Node.lit l).Formed fun _ => True := .literal l
  cases l <;> exact leaf rfl hn hw

theorem var (name : String) (t : Ty) : (Node.var name t).Tidy :=
  leaf rfl (Formed.var (v := ⟨name, t⟩) trivial) nofun

theorem name (s : String) : (Node.name s).Tidy := leaf rfl (.name s) nofun

theorem newObject (c : String) : Tidy (.mk .new [] (some (.ident c)) type) :=
  leaf rfl (.new _ _) nofun

theorem parens (h : x.Tidy) : x.parens.Tidy := (Operand.parens h.every).tidy

/-- An expression becomes an operand in parentheses, unless it is simple. -/
theorem asOperand (h : x.Tidy) : x.asOperand.Operand := by
  rw [Node.asOperand]
  split
  · rename_i hsimple
    exact ⟨h, hsimple⟩
  · exact .parens h.every

/-- An expression becomes an operand of a power in parentheses, unless it is one as it is. -/
theorem asPowerOperand (h : x.Tidy) :
    x.asPowerOperand.Operand ∧ x.asPowerOperand.op ∈ powerOps := by
  rcases x.asPowerOperand_cases with ⟨heq, hsimple, hop⟩ | heq
  · rw [heq]
    exact ⟨⟨h, hsimple⟩, hop⟩
  · rw [heq]
    exact ⟨.parens h.every, show Op.parens ∈ powerOps by decide⟩

/-- A node between two operands, unless it binds least or is a power. -/
theorem operator (hop : op.isBinary = true) (hlow : op.isLow = false) (hexp : op ≠ .exp)
    (hx : x.Operand) (hy : y.Operand) : Tidy (.mk op [x, y] none type) :=
  ⟨.operator hop hexp hx hy, hlow⟩

/-- A power of operands. -/
theorem power (hx : x.Operand ∧ x.op ∈ powerOps) (hy : y.Operand ∧ y.op ∈ powerOps) :
    (binary .exp x y).Tidy := by
  have hsuited : (binary .exp x y).Suited := forall_mem_pair hx.2 hy.2
  refine ⟨.two ⟨.binary _ _ _ rfl, ?_, hsuited, nofun, ?_, rfl⟩ hx.1.tidy.every
    hy.1.tidy.every, rfl⟩
  · exact forall_mem_pair hx.1.simple hy.1.simple
  · exact fun _ => forall_mem_pair hx.1.tidy.low hy.1.tidy.low

/-- A node before an operand. -/
theorem unary (hop : op ∈ Op.prefixes) (hx : x.Operand) : (Node.unary op x).Tidy := by
  have hsimple : ∀ y ∈ [x], y.isSimple = true := List.forall_mem_singleton.2 hx.simple
  have hlow : ∀ y ∈ [x], y.op.isLow = false := List.forall_mem_singleton.2 hx.tidy.low
  have hbracketed : (Node.unary op x).Bracketed ∧ op.isLow = false := by
    revert hop
    cases op <;> first
      | exact fun _ => ⟨⟨.unary x (by decide), hsimple, trivial, nofun, fun _ => hlow, rfl⟩, rfl⟩
      | exact fun hop => absurd hop (by decide)
  exact ⟨.one hbracketed.1 hx.tidy.every, hbracketed.2⟩

theorem cast {t : Ty} (ht : t.Literate) (hx : x.Operand) : (Node.cast t x).Tidy := by
  refine ⟨.one ⟨.cast _ ht.castKeyword, ?_, ⟨t, rfl, ht⟩, nofun, ?_, rfl⟩ hx.tidy.every, rfl⟩
  · exact List.forall_mem_singleton.2 hx.simple
  · exact fun _ => List.forall_mem_singleton.2 hx.tidy.low

theorem call {callee : String} (h : ∀ x ∈ args, x.Tidy) :
    Tidy (.mk .call (.name callee :: args) none type) := by
  have hargs : ∀ x ∈ Node.name callee :: args, x.Tidy :=
    List.forall_mem_cons.2 ⟨name callee, h⟩
  have hlow : ∀ x ∈ Node.name callee :: args, x.op.isLow = false := fun x hx => (hargs x hx).low
  exact ⟨.node ⟨.call _ _ _, nofun, ⟨_, _, rfl, rfl⟩, nofun, fun _ => hlow, rfl⟩ fun x hx =>
    (hargs x hx).every, rfl⟩

/-- A call of a method of an object. -/
theorem methodCall {name : String} (hobject : x.op = .var ∨ x.op = .parens) (hx : x.Tidy)
    (h : ∀ y ∈ args, y.Tidy) : Tidy (.mk .methodCall (x :: args) (some (.ident name)) type) := by
  have hargs : ∀ y ∈ x :: args, y.Tidy := List.forall_mem_cons.2 ⟨hx, h⟩
  have hlow : ∀ y ∈ x :: args, y.op.isLow = false := fun y hy => (hargs y hy).low
  exact ⟨.node ⟨.methodCall _ _ _ _, nofun, ⟨x, args, rfl, hobject⟩, nofun, fun _ => hlow, rfl⟩
    fun y hy => (hargs y hy).every, rfl⟩

theorem prop {name : String} (hobject : x.op = .var ∨ x.op = .parens) (hx : x.Tidy) :
    Tidy (.mk .prop [x] (some (.ident name)) type) := by
  refine ⟨.one ⟨.prop _ _ _, nofun, ⟨x, [], rfl, hobject⟩, nofun, ?_, rfl⟩ hx.every, rfl⟩
  exact fun _ => List.forall_mem_singleton.2 hx.low

theorem index (hvar : x.op = .var) (hx : x.Tidy) (hy : y.Tidy) :
    Tidy (.mk .index [x, y] none type) := by
  refine ⟨.two ⟨.index _ _ _, nofun, ⟨x, y, rfl, hvar⟩, nofun, ?_, rfl⟩ hx.every hy.every, rfl⟩
  exact fun _ => forall_mem_pair hx.low hy.low

theorem interpolated (hparts : ∀ x ∈ args, x.op = .var ∨ ∃ bytes, x = .stringLit bytes)
    (h : ∀ x ∈ args, x.Tidy) : Tidy (.mk .interpolated args none type) :=
  ⟨.node ⟨.interpolated _ hparts, nofun, hparts, nofun, fun _ x hx => (h x hx).low, rfl⟩
    fun x hx => (h x hx).every, rfl⟩

theorem operation (hop : op.isBinary = true) (hlow : op.isLow = false) (hexp : op ≠ .exp)
    (hx : x.Tidy) (hy : y.Tidy) : (Node.operation op x y).Tidy :=
  operator hop hlow hexp hx.asOperand hy.asOperand

end Tidy

namespace Operand

theorem castTo (k : Primitive) (h : x.Operand) : (Node.castTo k x).Operand :=
  ⟨.cast (.of k) h, rfl⟩

theorem parens_operation (hop : op.isBinary = true) (hexp : op ≠ .exp) (hx : x.Tidy)
    (hy : y.Tidy) : (Node.operation op x y).parens.Operand :=
  .parens (.operator hop hexp hx.asOperand hy.asOperand)

theorem parens_power (hx : x.Tidy) (hy : y.Tidy) :
    (binary .exp x.asPowerOperand y.asPowerOperand).parens.Operand :=
  .parens (Tidy.power hx.asPowerOperand hy.asPowerOperand).every

/-- A conditional expression in parentheses, whose branches may stand in some of their own. -/
theorem parens_ternary {x' y' : Node} (hx' : x' = x ∨ x' = x.parens) (hy' : y' = y ∨ y' = y.parens)
    (hz : z.Tidy) (hx : x.Tidy) (hy : y.Tidy) : (Node.ternary z.asOperand x' y').parens.Operand :=
  .parens (.ternary hz.asOperand (of_eq_or_parens hx' hx hx.parens)
    (of_eq_or_parens hy' hy hy.parens))

theorem helper (callee : String) (hx : x.Tidy) (hy : y.Tidy) :
    (Node.call callee [x, y]).Operand :=
  ⟨.call (forall_mem_pair hx hy), rfl⟩

end Operand

end Node

/-! ## Leaves -/

variable {env : Env} {n : Node}

theorem Env.varNode_operand (v : ScopeVar) : (Env.varNode v).Operand := ⟨.var _ _, rfl⟩

theorem Env.Reads.operand {t : Ty} (h : env.Reads t n) : n.op = .var ∧ n.Operand := by
  obtain ⟨v, -, -, rfl⟩ := h
  exact ⟨rfl, Env.varNode_operand v⟩

/-- A received object is a variable or in parentheses. -/
theorem Receives.tidy {c : ClassRef} (h : Receives env c n) :
    (n.op = .var ∨ n.op = .parens) ∧ n.Tidy := by
  cases h with
  | this _ => exact ⟨Or.inl rfl, .var _ _⟩
  | «variable» _ hread => exact ⟨Or.inl hread.operand.1, hread.operand.2.tidy⟩
  | fresh _ => exact ⟨Or.inr rfl, .parens (.newObject _)⟩

theorem ReadsField.tidy {t : Ty} (h : ReadsField env t n) : n.Tidy := by
  obtain ⟨-, hobject⟩ := h
  exact .prop hobject.tidy.1 hobject.tidy.2

/-- A string with variables in it is tidy. -/
theorem Part.interpolated_tidy {parts : List Node} {type : Option Ty}
    (h : ∀ p ∈ parts, Part env p) : Node.Tidy (.mk .interpolated parts none type) := by
  refine .interpolated (fun p hp => ?_) fun p hp => ?_
  · cases h p hp with
    | «variable» hread => exact Or.inl hread.operand.1
    | text bytes => exact Or.inr ⟨bytes, rfl⟩
  · cases h p hp with
    | «variable» hread => exact hread.operand.2.tidy
    | text bytes => exact .lit nofun

/-- A variable with another value where it is null, in parentheses. -/
theorem Env.Reads.nullCoalesce_tidy {t u : Ty} {y : Node} (h : env.Reads t n) (hy : y.Tidy) :
    ((Node.binary .nullCoalesce n y.asOperand).parens.withType u).Tidy := by
  have hevery : (Node.binary .nullCoalesce n y.asOperand).Every Node.Bracketed :=
    .operator rfl nofun h.operand.2 hy.asOperand
  exact (Node.Operand.parens hevery).tidy

/-! ## The grammar -/

/-- What is needed of a goal for the expressions that are derived for it to be tidy: the values of
its types can be written, and its functions are known. -/
def Goal.Written (env : Env) : Goal → Prop
  | .form f => ∃ k : Primitive, f.Gives k
  | .value t => t.Writable
  | .argument p => p.Castable ∧ p.type.Writable
  | .call f => f ∈ env.symbols.funcs
  | _ => True

/-- A place in a short tuple is not counted by the least integer. -/
theorem ofNat_ne_minValue {i : Nat} (h : i ≤ 3) : Int64.ofNat i ≠ Int64.minValue := by
  intro heq
  have hi := Int64.toInt_ofNat_of_lt (n := i) (by omega)
  rw [heq] at hi
  have hmin : Int64.minValue.toInt = -9223372036854775808 := rfl
  omega

/-- The operators of two operands that a form is used with bind tighter than the logical words, and
none of them is a power. -/
theorem Op.tight_of_mem {op : Op}
    (h : op ∈ comparisons ∨ op ∈ arithmetic ∨ op ∈ bitwise ∨ op ∈ shifts) :
    op.isBinary = true ∧ op.isLow = false ∧ op ≠ .exp := by
  have hall : ∀ op ∈ comparisons ++ (arithmetic ++ (bitwise ++ shifts)),
      op.isBinary = true ∧ op.isLow = false ∧ op ≠ .exp := by decide
  exact hall op (by simpa using h)

/-- The logical operators are no powers, and only their words bind least. -/
theorem Op.connective_of_mem {op : Op} (h : op ∈ connectives) :
    op.isBinary = true ∧ op ≠ .exp ∧ (¬ op.IsWord → op.isLow = false) := by
  have hall : ∀ op ∈ connectives, op.isBinary = true ∧ op ≠ .exp ∧
      (¬ (op = .andWord ∨ op = .orWord ∨ op = .xorWord) → op.isLow = false) := by decide
  exact hall op h

/-- An operation of a form with an operator that binds tighter than the logical words. -/
theorem Node.Tidy.operation_of_mem {op : Op} {x y : Node}
    (hop : op ∈ Op.comparisons ∨ op ∈ Op.arithmetic ∨ op ∈ Op.bitwise ∨ op ∈ Op.shifts)
    (hx : x.Tidy) (hy : y.Tidy) : (Node.operation op x y).Tidy := by
  obtain ⟨hbinary, hlow, hexp⟩ := Op.tight_of_mem hop
  exact .operation hbinary hlow hexp hx hy

/-- A logical operation that is not spelled as a word. -/
theorem Node.Tidy.connective {op : Op} {x y : Node} (hop : op ∈ Op.connectives)
    (hword : ¬ op.IsWord) (hx : x.Tidy) (hy : y.Tidy) : (Node.operation op x y).Tidy := by
  obtain ⟨hbinary, hexp, hlow⟩ := Op.connective_of_mem hop
  exact .operation hbinary (hlow hword) hexp hx hy

theorem Node.Operand.connective {op : Op} {x y : Node} (hop : op ∈ Op.connectives) (hx : x.Tidy)
    (hy : y.Tidy) : (Node.operation op x y).parens.Operand := by
  obtain ⟨hbinary, hexp, -⟩ := Op.connective_of_mem hop
  exact .parens_operation hbinary hexp hx hy

theorem Node.Operand.arithmetic {op : Op} {x y : Node} (hop : op ∈ Op.arithmetic) (hx : x.Tidy)
    (hy : y.Tidy) : (Node.operation op x y).parens.Operand := by
  obtain ⟨hbinary, -, hexp⟩ := Op.tight_of_mem (Or.inr (Or.inl hop))
  exact .parens_operation hbinary hexp hx hy

theorem Node.Tidy.shift {op : Op} {x y : Node} (hop : op ∈ Op.shifts) (hx : x.Tidy) (hy : y.Tidy) :
    (Node.binary op x.asOperand (Node.binary .bitAnd y.asOperand (.intLit 63)).parens).Tidy := by
  obtain ⟨hbinary, hlow, hexp⟩ := Op.tight_of_mem (Or.inr (Or.inr (Or.inr hop)))
  have hmask : (Node.intLit 63).Operand := ⟨.lit (by decide), rfl⟩
  exact .operator hbinary hlow hexp hx.asOperand (.parens (.operator rfl nofun hy.asOperand hmask))

/-- An element of a tuple whose type has values that can be written. -/
theorem tupleElem_tidy {v : ScopeVar} {elems : List Ty} {t : Ty} {i : Nat}
    (hw : v.type.Writable) (hty : v.type = .tuple elems) (hget : elems[i]? = some t) :
    ((Node.index (Env.varNode v) (.intLit (Int64.ofNat i))).withType t).Tidy := by
  rw [hty] at hw
  cases hw with
  | tuple hshort _ =>
      obtain ⟨hi, -⟩ := List.getElem?_eq_some_iff.1 hget
      have hne := ofNat_ne_minValue (Nat.le_of_lt (Nat.lt_of_lt_of_le hi hshort))
      exact .index rfl (Env.varNode_operand v).tidy (.lit fun heq => hne (Literal.int.inj heq))

/-- Every derived expression is tidy, if the parameters of the known functions are castable, and
the values of these and of what is visible can be written. -/
theorem Derives.tidy (hcast : env.symbols.Castable) (hclosed : env.symbols.Closed)
    (hvisible : ∀ v ∈ env.scope.visible, v.type.Writable) {b : Nat} {goal : Goal}
    (h : Derives env b goal n) : goal.Written env → n.Tidy := by
  have hparam : ∀ f ∈ env.symbols.funcs, ∀ p ∈ f.params, p.Castable ∧ p.type.Writable :=
    fun f hf p hp => ⟨hcast f hf p hp, (hclosed.within f hf p hp).writable⟩
  -- Operands are put in parentheses where they are not simple, so only what is built without them
  -- depends on more than the operator.
  induction h with
  | literal hl | formLiteral hl => exact fun _ => .lit hl.writable
  | bare hf _ ih => exact fun _ => ih ⟨_, hf.gives⟩
  | wrapped hf _ ih => exact fun _ => (ih ⟨_, hf.gives⟩).parens
  | compare _ _ _ ihx ihy =>
      exact fun ⟨_, _, hop⟩ => .operation_of_mem (Or.inl hop) (ihx trivial) (ihy trivial)
  | floatArith _ _ ihx ihy =>
      exact fun ⟨_, _, hop⟩ => .operation_of_mem (Or.inr (Or.inl hop)) (ihx trivial) (ihy trivial)
  | intBits _ _ ihx ihy =>
      exact fun ⟨_, _, hop⟩ =>
        .operation_of_mem (Or.inr (Or.inr (Or.inl hop))) (ihx trivial) (ihy trivial)
  | spaceship _ _ ihx ihy | concat _ _ ihx ihy =>
      exact fun _ => .operation rfl rfl nofun (ihx trivial) (ihy trivial)
  | logical hword _ _ ihx ihy =>
      exact fun ⟨_, _, hop⟩ => .connective hop hword (ihx trivial) (ihy trivial)
  | logicalWord _ _ _ ihx ihy =>
      exact fun ⟨_, _, hop⟩ => (Node.Operand.connective hop (ihx trivial) (ihy trivial)).tidy
  | intArith _ _ ihx ihy =>
      rintro ⟨k, -, hop⟩
      exact ((Node.Operand.arithmetic hop (ihx trivial) (ihy trivial)).castTo _).tidy
  | shift _ _ ihx ihy => exact fun ⟨_, _, hop⟩ => .shift hop (ihx trivial) (ihy trivial)
  | intExp _ _ ihx ihy =>
      exact fun _ => ((Node.Operand.parens_power (ihx trivial) (ihy trivial)).castTo _).tidy
  | not _ ih => exact fun _ => .unary (by decide) (ih trivial).asOperand
  | intUnary _ ih =>
      have hall : ∀ op ∈ Op.signs, op ∈ Op.prefixes := by decide
      exact fun ⟨_, _, hop⟩ => .unary (hall _ hop) (ih trivial).asOperand
  | cast _ ih => exact fun _ => ((ih trivial).asOperand.castTo _).tidy
  | ternary hx hy _ _ _ ihc ihx ihy =>
      exact fun _ =>
        (Node.Operand.parens_ternary hx hy (ihc trivial) (ihx trivial) (ihy trivial)).tidy
  | floatsEqual _ _ _ ihx ihy =>
      exact fun _ => (Node.Operand.helper _ (ihx trivial) (ihy trivial)).tidy
  | floatsDiffer _ _ _ ihx ihy =>
      exact fun _ => .unary (by decide) (.helper _ (ihx trivial) (ihy trivial))
  | safeDiv _ _ ihx ihy | safeMod _ _ ihx ihy =>
      exact fun _ => ((Node.Operand.helper _ (ihx trivial) (ihy trivial)).castTo _).tidy
  | @var _ _ v _ _ => exact fun _ => (Env.varNode_operand v).tidy
  | formCall hf _ _ ih => exact fun _ => ih hf
  | field hread => exact fun _ => hread.tidy
  | tupleElem hv hty hget => exact fun _ => tupleElem_tidy (hvisible _ hv) hty hget
  | nullCoalesce hread _ ih => exact fun _ => hread.nullCoalesce_tidy (ih trivial)
  | interpolated hparts => exact fun _ => Part.interpolated_tidy hparts
  | stringIndex hread _ ih =>
      exact fun _ => .index hread.operand.1 hread.operand.2.tidy (ih trivial)
  | stringLast hread =>
      exact fun _ => .index hread.operand.1 hread.operand.2.tidy (.lit (by decide))
  | mixedArray _ _ ih => exact fun _ => .node rfl (.arrayLit _ _) nofun fun x hx => ih x hx trivial
  | mixedScalar _ ih | scalarValue _ ih | mixedValue _ ih => exact fun _ => ih trivial
  | reused _ hread => exact fun _ => hread.operand.2.tidy
  | enumValue hl => exact fun ht => .lit (ht.values _ hl)
  | arrayValue _ ih =>
      exact fun ht => .node rfl (.arrayLit _ _) nofun fun x hx => ih x hx ht.elem
  | tupleValue hlen _ ih =>
      intro ht
      exact .node rfl (.tupleLit _ _) nofun (forall_mem_of_zip (Nat.le_of_eq hlen.symm) ht.elems ih)
  | newValue c => exact fun _ => .newObject _
  | nullValue t => exact fun _ => .leaf rfl (.null _) nofun
  | innerValue _ ih => exact fun ht => ih ht.inner
  | leftValue _ ih => exact fun ht => ih ht.left
  | rightValue _ ih => exact fun ht => ih ht.right
  | plainArgument _ _ ih => exact fun hp => ih hp.2
  | strictArgument hmust _ ih => exact fun hp => .cast (hp.1 hmust) (ih hp.2).asOperand
  | functionCall _ _ hmax _ ih => exact fun hf => .call (forall_mem_of_zip hmax (hparam _ hf) ih)
  | methodCall _ hobject _ hmax _ ih =>
      intro hf
      exact .methodCall hobject.tidy.1 hobject.tidy.2 (forall_mem_of_zip hmax (hparam _ hf) ih)

/-- A constant that can be written is tidy. -/
theorem ConstantOf.tidy {t : Ty} (h : ConstantOf t n) (hw : n.Every Node.Writable) : n.Tidy := by
  have hlit : ∀ l : Literal, (Node.lit l).Every Node.Writable → (Node.lit l).Tidy := by
    intro l hl
    refine .lit ?_
    rintro rfl
    exact hl.root rfl
  induction h with
  | literal _ | mixed _ | enum _ => exact hlit _ hw
  | array _ _ ih => exact .node rfl (.arrayLit _ _) nofun fun x hx => ih x hx (hw.child hx)
  | null t => exact .leaf rfl (.null _) nofun
  | inner _ ih | left _ ih | right _ ih => exact ih hw

end TypedPhp
