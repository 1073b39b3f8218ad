import TypedPhp.Proofs.Exec.Calls
import TypedPhp.Proofs.Expr.Kinds
import TypedPhp.Proofs.Syntax.Occurs

set_option autoImplicit false

/-!
# Hedged operators

Some operators fail on some operands, leave the kind of their operands, or depend on how floats are
rounded. Generated expressions avoid them or hedge them in: the distance of a shift is masked, what
may leave the integers is cast back to them at once, a quotient is taken by a helper under a cast,
and floats are compared by a helper. `Node.Hedged` is the condition on a node with its children, and
`Node.Calm` says that it holds throughout an expression, which needs no hedge itself. Every derived
expression is calm (`Derives.calm`).
-/

namespace TypedPhp

/-! ## Nodes with their children -/

instance (op : Op) : Decidable op.IsEquality :=
  inferInstanceAs
    (Decidable (op = .equal ∨ op = .identical ∨ op = .notEqual ∨ op = .notIdentical))

/-- The helpers that divide. -/
def dividers : List String := ["fuzz_safe_div", "fuzz_safe_mod"]

/-- The operators of compound assignments that may fail, or leave the integers. -/
def Op.riskyAssignments : List Op := [.div, .mod, .shiftLeft, .shiftRight, .exp]

namespace Node

/-- A power, or a sum, a difference or a product with an integer: it may leave the integers. -/
def Raw (n : Node) : Prop :=
  n.op = .exp ∨ n.op ∈ Op.arithmetic ∧ ∃ x ∈ n.args, ∃ vars, Fits vars .int x

/-- A call of a helper that divides. -/
def Divides (n : Node) : Prop := ∃ name ∈ dividers, n.callee? = some name

/-- A node needs no hedge: it is not raw, bare or in parentheses, and does not divide. -/
structure Settled (n : Node) : Prop where
  raw : ¬ n.Raw
  parens : n.op = .parens → ∀ x ∈ n.args, ¬ x.Raw
  divides : ¬ n.Divides

/-- A node may have a child: one that needs no hedge, or one that the node belongs to the hedge
of. What divides stands in a cast to the numeric kind of its operands. -/
inductive Hedges : Node → Node → Prop where
  | settled {n x : Node} : x.Settled → Hedges n x
  | parens {x : Node} : x.Raw → Hedges x.parens x
  | cast {x : Node} : x.Raw → Hedges (.cast .int x.parens) x.parens
  | quotient {k : Scalar} {x : Node} {vars : List ScopeVar} : k = .int ∨ k = .float →
      x.Divides → (∀ y ∈ x.args.tail, Fits vars (.scalar k) y) → Hedges (.cast (.scalar k) x) x

/-- The operator of a node is hedged. -/
structure Hedged (n : Node) : Prop where
  quotient : n.op ≠ .div ∧ n.op ≠ .mod
  modifies : n.op = .assignModify → ∀ op ∈ Op.riskyAssignments, n.payload ≠ some (.op op)
  masked : n.op ∈ Op.shifts →
    ∃ x y, n.args = [x, (Node.binary .bitAnd y (.intLit 63)).parens]
  exactly : n.op.IsEquality → ∀ x ∈ n.args, ∀ vars, ¬ Fits vars .float x
  discrete : n.op = .switch ∨ n.op = .case → ∀ x, n.args.head? = some x →
    ∀ vars, ¬ Fits vars .float x
  hedges : ∀ x ∈ n.args, n.Hedges x

end Node

/-- The operators of which the operands, the payload or the place are restricted. -/
def Op.isRisky : Op → Bool
  | .div | .mod | .assignModify | .shiftLeft | .shiftRight | .equal | .identical | .notEqual
  | .notIdentical | .switch | .case => true
  | _ => false

/-- The operators of which a node may need a hedge. -/
def Op.isLoose : Op → Bool
  | .exp | .add | .sub | .mul | .parens | .call => true
  | _ => false

/-- Connectives, operators on bits and signs can stand anywhere. -/
theorem Op.unrestricted_of_mem {op : Op}
    (h : op ∈ connectives ∨ op ∈ bitwise ∨ op ∈ signs) :
    op.isRisky = false ∧ op.isLoose = false := by
  have hall : ∀ op ∈ connectives ++ (bitwise ++ signs),
      op.isRisky = false ∧ op.isLoose = false := by decide
  exact hall op (by simpa using h)

namespace Node

variable {n x y : Node} {op : Op} {args : List Node} {payload : Option Payload}
  {type : Option Ty}

theorem not_divides_of_op (h : n.op ≠ .call) : ¬ n.Divides := by
  rintro ⟨name, -, hname⟩
  unfold callee? at hname
  split at hname
  · exact h rfl
  · cases hname

theorem Raw.op_mem (h : n.Raw) : n.op ∈ [Op.exp, .add, .sub, .mul] := by
  rcases h with h | ⟨h, -⟩
  · rw [h]
    exact List.mem_cons_self
  · exact List.mem_cons_of_mem _ h

theorem not_raw_of_parens (h : n.op = .parens) : ¬ n.Raw := by
  intro hraw
  have hmem := hraw.op_mem
  rw [h] at hmem
  exact absurd hmem (by decide)

/-- A node of another operator needs no hedge. -/
theorem Settled.of_op (hop : n.op.isLoose = false) : n.Settled := by
  have hne : ∀ op : Op, op.isLoose = true → n.op ≠ op := by
    rintro op hloose rfl
    rw [hloose] at hop
    cases hop
  have hall : ∀ op ∈ [Op.exp, .add, .sub, .mul], op.isLoose = true := by decide
  exact ⟨fun hraw => hne _ (hall _ hraw.op_mem) rfl, fun heq => absurd heq (hne _ rfl),
    not_divides_of_op (hne _ rfl)⟩

theorem Settled.inParens (h : x.Settled) : Settled (.mk .parens [x] none type) where
  raw := not_raw_of_parens rfl
  parens := fun _ => List.forall_mem_singleton.2 h.raw
  divides := not_divides_of_op nofun

/-- The operator of a node that is not restricted is hedged if the node may have its children. -/
theorem Hedged.of_hedges (hop : n.op.isRisky = false) (h : ∀ x ∈ n.args, n.Hedges x) :
    n.Hedged := by
  have hne : ∀ op : Op, op.isRisky = true → n.op ≠ op := by
    rintro op hrisky rfl
    rw [hrisky] at hop
    cases hop
  refine ⟨⟨hne _ rfl, hne _ rfl⟩, fun heq => absurd heq (hne _ rfl), ?_, ?_, ?_, h⟩
  · intro hshift
    rcases List.mem_cons.1 hshift with heq | hshift
    · exact absurd heq (hne _ rfl)
    · exact absurd (List.mem_singleton.1 hshift) (hne _ rfl)
  · rintro (heq | heq | heq | heq) <;> exact absurd heq (hne _ rfl)
  · rintro (heq | heq) <;> exact absurd heq (hne _ rfl)

/-! ## Expressions -/

/-- An expression is calm: it needs no hedge, and every operator in it is hedged. -/
structure Calm (n : Node) : Prop where
  settled : n.Settled
  every : n.Every Hedged

theorem Hedges.of_calm {n : Node} (h : ∀ x ∈ args, x.Calm) : ∀ x ∈ args, n.Hedges x :=
  fun x hx => .settled (h x hx).settled

namespace Calm

theorem node (hrisky : op.isRisky = false) (hloose : op.isLoose = false)
    (h : ∀ x ∈ args, x.Calm) : Calm (.mk op args payload type) :=
  ⟨.of_op hloose, .node (.of_hedges hrisky (.of_calm h)) fun x hx => (h x hx).every⟩

theorem leaf (hrisky : op.isRisky = false) (hloose : op.isLoose = false) :
    Calm (.mk op [] payload type) :=
  node hrisky hloose nofun

theorem one (hrisky : op.isRisky = false) (hloose : op.isLoose = false) (hx : x.Calm) :
    Calm (.mk op [x] payload type) :=
  node hrisky hloose (List.forall_mem_singleton.2 hx)

theorem two (hrisky : op.isRisky = false) (hloose : op.isLoose = false) (hx : x.Calm)
    (hy : y.Calm) : Calm (.mk op [x, y] payload type) :=
  node hrisky hloose (forall_mem_pair hx hy)

theorem lit (l : Literal) : (lit l).Calm := by
  cases l <;> exact leaf rfl rfl

theorem parens (h : x.Calm) : Calm (.mk .parens [x] none type) :=
  ⟨h.settled.inParens,
    .one (.of_hedges rfl (List.forall_mem_singleton.2 (.settled h.settled))) h.every⟩

theorem asOperand (h : x.Calm) : x.asOperand.Calm :=
  of_eq_or_parens x.asOperand_eq h h.parens

theorem asPowerOperand (h : x.Calm) : x.asPowerOperand.Calm :=
  of_eq_or_parens x.asPowerOperand_eq h h.parens

/-- A call of what is no divider, with calm arguments. -/
theorem call {callee : String} (hname : callee ∉ dividers) (h : ∀ x ∈ args, x.Calm) :
    Calm (.mk .call (.name callee :: args) none type) := by
  have hargs : ∀ x ∈ Node.name callee :: args, x.Calm :=
    List.forall_mem_cons.2 ⟨leaf rfl rfl, h⟩
  refine ⟨⟨fun hraw => absurd (show Op.call ∈ _ from hraw.op_mem) (by decide), nofun, ?_⟩,
    .node (.of_hedges rfl (.of_calm hargs)) fun x hx => (hargs x hx).every⟩
  rintro ⟨name, hmem, heq⟩
  obtain rfl := Option.some.inj heq
  exact hname hmem

/-- A comparison that is no equality of floats. -/
theorem compare {k : Primitive} (hop : op ∈ Op.comparisons) (hk : ¬ (k = .float ∧ op.IsEquality))
    {vars : List ScopeVar} (hx : x.Calm) (hy : y.Calm) (hxk : Fits vars (.scalar k.scalar) x)
    (hyk : Fits vars (.scalar k.scalar) y) : (Node.binary op x y).Calm := by
  have hall : ∀ op ∈ Op.comparisons, op.isLoose = false ∧ op ≠ .div ∧ op ≠ .mod ∧
      op ≠ .assignModify ∧ op ∉ Op.shifts ∧ op ≠ .switch ∧ op ≠ .case := by decide
  obtain ⟨hloose, hdiv, hmod, hassign, hshift, hswitch, hcase⟩ := hall op hop
  have hargs := forall_mem_pair (P := Calm) hx hy
  have hfits : ∀ z ∈ [x, y], Fits vars (.scalar k.scalar) z := forall_mem_pair hxk hyk
  refine ⟨.of_op hloose, .node ?_ fun z hz => (hargs z hz).every⟩
  refine ⟨⟨hdiv, hmod⟩, fun heq => absurd heq hassign, fun heq => absurd heq hshift, ?_,
    fun heq => heq.elim (absurd · hswitch) (absurd · hcase), .of_calm hargs⟩
  intro hequal z hz vars' hfloat
  exact hk ⟨(hfits z hz).kind_unique (k := .float) hfloat, hequal⟩

/-- A shift by a masked distance. -/
theorem shift (hop : op ∈ Op.shifts) (hx : x.Calm) (hy : y.Calm) :
    (Node.binary op x (Node.binary .bitAnd y (.intLit 63)).parens).Calm := by
  have hall : ∀ op ∈ Op.shifts, op.isLoose = false ∧ op ≠ .div ∧ op ≠ .mod ∧
      op ≠ .assignModify ∧ ¬ op.IsEquality ∧ op ≠ .switch ∧ op ≠ .case := by decide
  obtain ⟨hloose, hdiv, hmod, hassign, hequal, hswitch, hcase⟩ := hall op hop
  have hmask : (Node.binary .bitAnd y (.intLit 63)).parens.Calm := .parens (two rfl rfl hy (lit _))
  have hargs := forall_mem_pair (P := Calm) hx hmask
  refine ⟨.of_op hloose, .node ?_ fun z hz => (hargs z hz).every⟩
  exact ⟨⟨hdiv, hmod⟩, fun heq => absurd heq hassign, fun _ => ⟨x, y, rfl⟩,
    fun heq => absurd heq hequal, fun heq => heq.elim (absurd · hswitch) (absurd · hcase),
    .of_calm hargs⟩

/-- A power of integers, or a sum, a difference or a product of them, that is cast back. -/
theorem castArith (hop : op = .exp ∨ op ∈ Op.arithmetic) {vars : List ScopeVar} (hx : x.Calm)
    (hy : y.Calm) (hint : Fits vars .int x) :
    (Node.cast .int (Node.binary op x y).parens).Calm := by
  have hraw : (Node.binary op x y).Raw := hop.imp_right fun hop => ⟨hop, x, List.mem_cons_self,
    vars, hint⟩
  have hrisky : op.isRisky = false := by
    have hall : ∀ op ∈ Op.exp :: Op.arithmetic, op.isRisky = false := by decide
    exact hall op (List.mem_cons.2 hop)
  have hinner : (Node.binary op x y).Every Hedged := by
    have hargs := forall_mem_pair (P := Calm) hx hy
    exact .node (.of_hedges hrisky (.of_calm hargs)) fun z hz => (hargs z hz).every
  refine ⟨.of_op rfl, .one (.of_hedges rfl (List.forall_mem_singleton.2 (.cast hraw))) ?_⟩
  exact .one (.of_hedges rfl (List.forall_mem_singleton.2 (.parens hraw))) hinner

/-- A quotient of two numbers of a kind that is cast to it. -/
theorem castQuotient {k : Scalar} {name : String} (hk : k = .int ∨ k = .float)
    (hname : name ∈ dividers) {vars : List ScopeVar} (hx : x.Calm) (hy : y.Calm)
    (hxk : Fits vars (.scalar k) x) (hyk : Fits vars (.scalar k) y) :
    (Node.cast (.scalar k) (Node.call name [x, y])).Calm := by
  have hargs : ∀ z ∈ [Node.name name, x, y], z.Calm :=
    List.forall_mem_cons.2 ⟨leaf rfl rfl, forall_mem_pair hx hy⟩
  refine ⟨.of_op rfl, .one (.of_hedges rfl (List.forall_mem_singleton.2 ?_)) ?_⟩
  · exact .quotient hk ⟨name, hname, rfl⟩ (forall_mem_pair hxk hyk)
  · exact .node (.of_hedges rfl (.of_calm hargs)) fun z hz => (hargs z hz).every

/-- A conditional expression, whose branches may stand in parentheses. -/
theorem ternary {z x' y' : Node} (hx' : x' = x ∨ x' = x.parens) (hy' : y' = y ∨ y' = y.parens)
    (hz : z.Calm) (hx : x.Calm) (hy : y.Calm) : (Node.ternary z.asOperand x' y').Calm := by
  refine .node rfl rfl (List.forall_mem_cons.2 ⟨hz.asOperand, forall_mem_pair ?_ ?_⟩)
  · exact of_eq_or_parens hx' hx hx.parens
  · exact of_eq_or_parens hy' hy hy.parens

theorem helper {callee : String} (hname : callee ∉ dividers) (hx : x.Calm) (hy : y.Calm) :
    (Node.call callee [x, y]).Calm :=
  .call hname (forall_mem_pair hx hy)

/-- A sum, a difference or a product of floats. -/
theorem floatArith (hop : op ∈ Op.arithmetic) {vars : List ScopeVar} (hx : x.Calm) (hy : y.Calm)
    (hxf : Fits vars .float x) (hyf : Fits vars .float y) : (Node.binary op x y).Calm := by
  have hall : ∀ op ∈ Op.arithmetic, op.isRisky = false ∧ op ≠ .exp ∧ op ≠ .parens ∧
      op ≠ .call := by decide
  obtain ⟨hrisky, hexp, hparens, hcall⟩ := hall op hop
  have hargs := forall_mem_pair (P := Calm) hx hy
  have hfloat : ∀ z ∈ [x, y], Fits vars .float z := forall_mem_pair hxf hyf
  refine ⟨⟨?_, fun heq => absurd heq hparens, not_divides_of_op hcall⟩,
    .node (.of_hedges hrisky (.of_calm hargs)) fun z hz => (hargs z hz).every⟩
  rintro (heq | ⟨-, z, hz, vars', hint⟩)
  · exact hexp heq
  -- An operand is a float, so it is no integer.
  · exact nomatch Fits.kind_unique (j := .float) (k := .int) (hfloat z hz) hint

end Calm

end Node

/-! ## The grammar -/

/-- A function is not called by the name of a helper that divides. -/
def FuncType.NoDivider (f : FuncType) : Prop := f.owner = none → f.name ∉ dividers

/-- What is needed of a goal for the expressions that are derived for it to be calm. -/
def Goal.Undivided : Goal → Prop
  | .form f => ∃ k : Primitive, f.Gives k
  | .call f => f.NoDivider
  | _ => True

variable {env : Env} {n : Node}

theorem Env.Reads.calm {t : Ty} (h : env.Reads t n) : n.Calm := by
  obtain ⟨v, -, -, rfl⟩ := h
  exact .leaf rfl rfl

theorem Receives.calm {c : ClassRef} (h : Receives env c n) : n.Calm := by
  cases h with
  | this _ => exact .leaf rfl rfl
  | «variable» _ hread => exact hread.calm
  | fresh _ => exact .parens (.leaf rfl rfl)

theorem ReadsField.calm {t : Ty} (h : ReadsField env t n) : n.Calm := by
  obtain ⟨-, hobject⟩ := h
  exact .one rfl rfl hobject.calm

/-- A string with variables in it is calm. -/
theorem Part.interpolated_calm {parts : List Node} {type : Option Ty}
    (h : ∀ p ∈ parts, Part env p) : Node.Calm (.mk .interpolated parts none type) := by
  refine .node rfl rfl fun p hp => ?_
  cases h p hp with
  | «variable» hread => exact hread.calm
  | text bytes => exact .lit _

/-- An operation of a form with an operator that asks for no hedge. -/
theorem Node.Calm.operation_of_mem {op : Op} {x y : Node}
    (hop : op ∈ Op.connectives ∨ op ∈ Op.bitwise) (hx : x.Calm) (hy : y.Calm) :
    (Node.operation op x y).Calm := by
  obtain ⟨hrisky, hloose⟩ := Op.unrestricted_of_mem (hop.imp_right Or.inl)
  exact .two hrisky hloose hx.asOperand hy.asOperand

/-- The kind of the numbers that a form divides. -/
theorem ExprForm.Gives.number {j k : Primitive} (h : (ExprForm.safeDiv j).Gives k) :
    j.scalar = .int ∨ j.scalar = .float := by
  obtain ⟨rfl, rfl | rfl⟩ := h
  · exact Or.inl rfl
  · exact Or.inr rfl

/-- Every derived expression is calm, if no known function is named like a helper that
divides. -/
theorem Derives.calm (hnames : ∀ f ∈ env.symbols.funcs, f.NoDivider) {b : Nat} {goal : Goal}
    (h : Derives env b goal n) : goal.Undivided → n.Calm := by
  -- The kinds of operands are those that they fit, which is known of every derived expression.
  induction h with
  | literal _ | formLiteral _ | enumValue _ => exact fun _ => .lit _
  | bare hf _ ih => exact fun _ => ih ⟨_, hf.gives⟩
  | wrapped hf _ ih => exact fun _ => (ih ⟨_, hf.gives⟩).parens
  | compare hk hx hy ihx ihy =>
      rintro ⟨k, -, hop⟩
      exact .compare hop hk (ihx trivial).asOperand (ihy trivial).asOperand hx.fits.asOperand
        hy.fits.asOperand
  | logical _ _ _ ihx ihy =>
      exact fun ⟨_, _, hop⟩ => .operation_of_mem (Or.inl hop) (ihx trivial) (ihy trivial)
  | logicalWord _ _ _ ihx ihy =>
      exact fun ⟨_, _, hop⟩ => .parens (.operation_of_mem (Or.inl hop) (ihx trivial) (ihy trivial))
  | intBits _ _ ihx ihy =>
      exact fun ⟨_, _, hop⟩ => .operation_of_mem (Or.inr hop) (ihx trivial) (ihy trivial)
  | spaceship _ _ ihx ihy | concat _ _ ihx ihy =>
      exact fun _ => .two rfl rfl (ihx trivial).asOperand (ihy trivial).asOperand
  | intArith hx _ ihx ihy =>
      rintro ⟨k, -, hop⟩
      exact .castArith (Or.inr hop) (ihx trivial).asOperand (ihy trivial).asOperand
        hx.fits.asOperand
  | intExp hx _ ihx ihy =>
      intro _
      exact .castArith (Or.inl rfl) (ihx trivial).asPowerOperand (ihy trivial).asPowerOperand
        hx.fits.asPowerOperand
  | floatArith hx hy ihx ihy =>
      rintro ⟨k, -, hop⟩
      exact .floatArith hop (ihx trivial).asOperand (ihy trivial).asOperand hx.fits.asOperand
        hy.fits.asOperand
  | shift _ _ ihx ihy =>
      exact fun ⟨_, _, hop⟩ => .shift hop (ihx trivial).asOperand (ihy trivial).asOperand
  | intUnary _ ih =>
      rintro ⟨k, -, hop⟩
      obtain ⟨hrisky, hloose⟩ := Op.unrestricted_of_mem (Or.inr (Or.inr hop))
      exact .one hrisky hloose (ih trivial).asOperand
  | not _ ih | cast _ ih | strictArgument _ _ ih =>
      exact fun _ => .one rfl rfl (ih trivial).asOperand
  | ternary hx hy _ _ _ ihc ihx ihy =>
      exact fun _ => .parens (.ternary hx hy (ihc trivial) (ihx trivial) (ihy trivial))
  | floatsEqual _ _ _ ihx ihy => exact fun _ => .helper (by decide) (ihx trivial) (ihy trivial)
  | floatsDiffer _ _ _ ihx ihy =>
      exact fun _ => .one rfl rfl (.helper (by decide) (ihx trivial) (ihy trivial))
  | safeDiv hx hy ihx ihy =>
      rintro ⟨j, hj⟩
      exact .castQuotient hj.number (by decide) (ihx trivial) (ihy trivial) hx.fits hy.fits
  | safeMod hx hy ihx ihy =>
      intro _
      exact .castQuotient (Or.inl rfl) (by decide) (ihx trivial) (ihy trivial) hx.fits hy.fits
  | formCall hf _ _ ih => exact fun _ => ih (hnames _ hf)
  | field hread => exact fun _ => hread.calm
  | tupleElem _ _ _ => exact fun _ => .two rfl rfl (.leaf rfl rfl) (.lit _)
  | nullCoalesce hread _ ih =>
      exact fun _ => .parens (.two rfl rfl hread.calm (ih trivial).asOperand)
  | interpolated hparts => exact fun _ => Part.interpolated_calm hparts
  | stringIndex hread _ ih => exact fun _ => .two rfl rfl hread.calm (ih trivial)
  | stringLast hread => exact fun _ => .two rfl rfl hread.calm (.lit _)
  | mixedScalar _ ih | scalarValue _ ih | mixedValue _ ih | innerValue _ ih | leftValue _ ih
  | rightValue _ ih | plainArgument _ _ ih => exact fun _ => ih trivial
  | mixedArray _ _ ih | arrayValue _ ih => exact fun _ => .node rfl rfl fun x hx => ih x hx trivial
  | reused _ hread => exact fun _ => hread.calm
  | tupleValue hlen _ ih =>
      intro _
      exact .node rfl rfl (forall_mem_of_zip (Nat.le_of_eq hlen.symm) (fun _ _ => trivial) ih)
  | var _ _ | newValue c | nullValue t => exact fun _ => .leaf rfl rfl
  | functionCall howner _ hmax _ ih =>
      exact fun hf => .call (hf howner) (forall_mem_of_zip hmax (fun _ _ => trivial) ih)
  | methodCall _ hobject _ hmax _ ih =>
      have hargs := forall_mem_of_zip hmax (fun _ _ => trivial) ih
      exact fun _ => .node rfl rfl (List.forall_mem_cons.2 ⟨hobject.calm, hargs⟩)

/-- A constant is calm. -/
theorem ConstantOf.calm {t : Ty} (h : ConstantOf t n) : n.Calm := by
  induction h with
  | literal _ | mixed _ | enum _ => exact .lit _
  | array _ _ ih => exact .node rfl rfl ih
  | null t => exact .leaf rfl rfl
  | inner _ ih | left _ ih | right _ ih => exact ih

/-! ## What hedges a node -/

namespace Node

variable {m : Node}

/-- What divides is not raw. -/
theorem Divides.not_raw (h : n.Divides) : ¬ n.Raw := by
  intro hraw
  have hcall : n.op = .call := by
    by_contra hne
    exact not_divides_of_op hne h
  have hmem := hraw.op_mem
  rw [hcall] at hmem
  exact absurd hmem (by decide)

/-- A raw node can only stand in parentheses. -/
theorem Hedges.eq_parens (h : m.Hedges n) (hraw : n.Raw) : m = n.parens := by
  cases h with
  | settled hn => exact absurd hraw hn.raw
  | parens _ => rfl
  | cast _ => exact absurd hraw (not_raw_of_parens rfl)
  | quotient _ hdivides _ => exact absurd hraw hdivides.not_raw

/-- Parentheses that need a hedge can only stand in a cast to the integers. -/
theorem Hedges.eq_cast (h : m.Hedges n) (hop : n.op = .parens) (hn : ¬ n.Settled) :
    m = .cast .int n := by
  cases h with
  | settled hs => exact absurd hs hn
  | parens hraw => exact absurd hraw (not_raw_of_parens hop)
  | cast _ => rfl
  | quotient _ hdivides _ =>
      refine absurd hdivides (not_divides_of_op ?_)
      rw [hop]
      exact nofun

/-- What divides can only stand in a cast to the kind of its operands. -/
theorem Hedges.eq_quotient (h : m.Hedges n) (hdivides : n.Divides) :
    ∃ k vars, (k = .int ∨ k = .float) ∧ m = .cast (.scalar k) n ∧
      ∀ x ∈ n.args.tail, Fits vars (.scalar k) x := by
  cases h with
  | settled hn => exact absurd hdivides hn.divides
  | parens hraw => exact absurd hraw hdivides.not_raw
  | cast _ => exact absurd hdivides (not_divides_of_op nofun)
  | quotient hk _ hfits => exact ⟨_, _, hk, rfl, hfits⟩

namespace Occurs

variable {roots above : List Node}

/-- A node that needs a hedge does not stand at the root, and its parent hedges it. -/
theorem hedged (hroots : ∀ r ∈ roots, r.Calm) (h : Occurs roots above n) (hn : ¬ n.Settled) :
    ∃ m above', above = m :: above' ∧ Occurs roots above' m ∧ m.Hedges n := by
  have hevery : ∀ {above : List Node} {m : Node}, Occurs roots above m → m.Hedged := by
    intro above m hm
    obtain ⟨r, hr, hsub⟩ := Node.mem_subtermsList.1 hm.mem_subtermsList
    exact (hroots r hr).every m hsub
  cases h with
  | root hmem => exact absurd (hroots n hmem).settled hn
  | child hm hx => exact ⟨_, _, rfl, hm, (hevery hm).hedges n hx⟩

/-- In calm trees a raw node stands in parentheses, and these in a cast to the integers. -/
theorem castBack (hroots : ∀ r ∈ roots, r.Calm) (h : Occurs roots above n) (hraw : n.Raw) :
    ∃ rest, above = n.parens :: .cast .int n.parens :: rest := by
  obtain ⟨m, above', rfl, hm, hhedges⟩ := h.hedged hroots fun hn => hn.raw hraw
  obtain rfl := hhedges.eq_parens hraw
  -- The parentheses need a hedge in turn.
  have hparens : ¬ n.parens.Settled := fun hs => hs.parens rfl n List.mem_cons_self hraw
  obtain ⟨c, rest, rfl, -, hhedges⟩ := hm.hedged hroots hparens
  exact ⟨rest, by rw [hhedges.eq_cast rfl hparens]⟩

/-- In calm trees a call that divides stands in a cast to the kind of its operands. -/
theorem divided (hroots : ∀ r ∈ roots, r.Calm) (h : Occurs roots above n)
    (hdivides : n.Divides) : ∃ k vars rest, (k = .int ∨ k = .float) ∧
      above = .cast (.scalar k) n :: rest ∧ ∀ x ∈ n.args.tail, Fits vars (.scalar k) x := by
  obtain ⟨m, rest, rfl, -, hhedges⟩ := h.hedged hroots fun hn => hn.divides hdivides
  obtain ⟨k, vars, hk, rfl, hfits⟩ := hhedges.eq_quotient hdivides
  exact ⟨k, vars, rest, hk, rfl, hfits⟩

end Occurs

end Node

end TypedPhp
