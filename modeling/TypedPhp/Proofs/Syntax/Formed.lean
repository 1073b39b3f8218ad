import TypedPhp.Print.Expr
import TypedPhp.Proofs.Syntax.Sites

set_option autoImplicit false

/-!
# Formed expressions

A node is complete if it has the children, the payload and the type that the writer needs for its
operator. It is formed if besides it is typed as the generator types it, and if it is a variable, a
known one. An expression of which every node is formed is written without a fault
(`Node.Every.written`). The variables of such an expression are read off the same judgment
(`Node.Every.varNode`).
-/

namespace TypedPhp

theorem forall_mem_pair {α : Type} {P : α → Prop} {x y : α} (hx : P x) (hy : P y) :
    ∀ z ∈ [x, y], P z :=
  List.forall_mem_cons.2 ⟨hx, List.forall_mem_singleton.2 hy⟩

namespace Node

/-! ## Every node of a tree -/

/-- A node of several trees is one of one of them. -/
theorem mem_subtermsList {m : Node} : ∀ {ns : List Node},
    m ∈ subtermsList ns ↔ ∃ n ∈ ns, m ∈ n.subterms
  | [] => by simp [subtermsList]
  | n :: ns => by
      rw [subtermsList, List.mem_append, mem_subtermsList]
      simp

/-- Every node of a tree satisfies a condition. -/
def Every (P : Node → Prop) (n : Node) : Prop := ∀ m ∈ n.subterms, P m

namespace Every

variable {P Q : Node → Prop} {n : Node} {op : Op} {args : List Node} {payload : Option Payload}
  {type : Option Ty}

/-- The condition holds at the root and in every child. -/
theorem node (h : P (mk op args payload type)) (hargs : ∀ x ∈ args, Every P x) :
    Every P (mk op args payload type) := by
  intro m hm
  rw [subterms] at hm
  rcases List.mem_cons.1 hm with rfl | hm
  · exact h
  · obtain ⟨x, hx, hm⟩ := mem_subtermsList.1 hm
    exact hargs x hx m hm

theorem leaf (h : P (mk op [] payload type)) : Every P (mk op [] payload type) :=
  node h nofun

theorem one {x : Node} (h : P (mk op [x] payload type)) (hx : Every P x) :
    Every P (mk op [x] payload type) :=
  node h (List.forall_mem_singleton.2 hx)

theorem two {x y : Node} (h : P (mk op [x, y] payload type)) (hx : Every P x) (hy : Every P y) :
    Every P (mk op [x, y] payload type) :=
  node h (forall_mem_pair hx hy)

theorem root (h : Every P (mk op args payload type)) : P (mk op args payload type) :=
  h _ (by rw [subterms]; exact List.mem_cons_self)

theorem child (h : Every P (mk op args payload type)) {x : Node} (hx : x ∈ args) : Every P x := by
  intro m hm
  apply h
  rw [subterms]
  exact List.mem_cons_of_mem _ (mem_subtermsList.2 ⟨x, hx, hm⟩)

theorem mono (h : Every P n) (hPQ : ∀ m, P m → Q m) : Every Q n := fun m hm => hPQ m (h m hm)

end Every

end Node

/-! ## Formed nodes -/

/-- The operators with one operand. -/
def Op.unary : List Op :=
  [.not, .negation, .unaryPlus, .bitNot, .preInc, .preDec, .postInc, .postDec]

/-- The operators that stand before their operand. -/
def Op.leading : List Op := [.not, .negation, .unaryPlus, .bitNot, .preInc, .preDec]

/-- Two operators stand after their operand, the others with one operand before it. -/
theorem Op.unary_cases {op : Op} (h : op ∈ unary) :
    op = .postInc ∨ op = .postDec ∨ op ∈ leading := by
  revert h
  cases op <;> decide

/-- A node has what its operator needs, and a variable is one of the known ones. -/
inductive Node.Formed (known : ScopeVar → Prop) : Node → Prop where
  | parens (x : Node) (type : Option Ty) : Formed known (.mk .parens [x] none type)
  | literal (l : Literal) : Formed known (.lit l)
  | null (type : Option Ty) : Formed known (.mk .null [] none type)
  | var {v : ScopeVar} : known v → Formed known (Env.varNode v)
  | name (s : String) : Formed known (.name s)
  | arrayLit (elems : List Node) (type : Option Ty) : Formed known (.mk .arrayLit elems none type)
  | tupleLit (elems : List Node) (type : Option Ty) : Formed known (.mk .tupleLit elems none type)
  | interpolated {parts : List Node} (type : Option Ty) :
      (∀ p ∈ parts, p.op = .var ∨ ∃ bytes, p = .stringLit bytes) →
      Formed known (.mk .interpolated parts none type)
  | new (c : String) (type : Option Ty) : Formed known (.mk .new [] (some (.ident c)) type)
  | prop (object : Node) (field : String) (type : Option Ty) :
      Formed known (.mk .prop [object] (some (.ident field)) type)
  | call (callee : Node) (args : List Node) (type : Option Ty) :
      Formed known (.mk .call (callee :: args) none type)
  | methodCall (object : Node) (method : String) (args : List Node) (type : Option Ty) :
      Formed known (.mk .methodCall (object :: args) (some (.ident method)) type)
  | index (x key : Node) (type : Option Ty) : Formed known (.mk .index [x, key] none type)
  | cast {t : Ty} (x : Node) : t.castKeyword?.isSome = true → Formed known (.cast t x)
  | ternary (cond x y : Node) : Formed known (.ternary cond x y)
  | unary {op : Op} (x : Node) : op ∈ Op.unary → Formed known (.unary op x)
  | binary {op : Op} (x y : Node) (type : Option Ty) : op.isBinary = true →
      Formed known (.mk op [x, y] none type)
  | assign (lhs rhs : Node) : Formed known (.assign lhs rhs)
  | assignModify {op : Op} (lhs rhs : Node) : op.isBinary = true →
      Formed known (.assignModify op lhs rhs)

/-- A node has the children and the payload that its text is put together from. -/
inductive Node.Complete : Node → Prop where
  | parens (x : Node) (type : Option Ty) : Complete (.mk .parens [x] none type)
  | literal (l : Literal) (type : Option Ty) :
      Complete (.mk (literalOp l) [] (some (.literal l)) type)
  | null (type : Option Ty) : Complete (.mk .null [] none type)
  | var (s : String) (type : Option Ty) : Complete (.mk .var [] (some (.ident s)) type)
  | name (s : String) (type : Option Ty) : Complete (.mk .name [] (some (.ident s)) type)
  | arrayLit (elems : List Node) (type : Option Ty) : Complete (.mk .arrayLit elems none type)
  | tupleLit (elems : List Node) (type : Option Ty) : Complete (.mk .tupleLit elems none type)
  | interpolated {parts : List Node} (type : Option Ty) :
      (∀ p ∈ parts, p.op = .var ∨ ∃ bytes, p.literal? = some (.string bytes)) →
      Complete (.mk .interpolated parts none type)
  | new (c : String) (type : Option Ty) : Complete (.mk .new [] (some (.ident c)) type)
  | prop (object : Node) (field : String) (type : Option Ty) :
      Complete (.mk .prop [object] (some (.ident field)) type)
  | call (callee : Node) (args : List Node) (type : Option Ty) :
      Complete (.mk .call (callee :: args) none type)
  | methodCall (object : Node) (method : String) (args : List Node) (type : Option Ty) :
      Complete (.mk .methodCall (object :: args) (some (.ident method)) type)
  | index (x key : Node) (type : Option Ty) : Complete (.mk .index [x, key] none type)
  | cast {t : Ty} (x : Node) : t.castKeyword?.isSome = true →
      Complete (.mk .cast [x] none (some t))
  | ternary (cond x y : Node) (type : Option Ty) : Complete (.mk .ternary [cond, x, y] none type)
  | unary {op : Op} (x : Node) (type : Option Ty) : op ∈ Op.unary →
      Complete (.mk op [x] none type)
  | binary {op : Op} (x y : Node) (type : Option Ty) : op.isBinary = true →
      Complete (.mk op [x, y] none type)
  | assign (lhs rhs : Node) (type : Option Ty) : Complete (.mk .assign [lhs, rhs] none type)
  | assignModify {op : Op} (lhs rhs : Node) (type : Option Ty) : op.isBinary = true →
      Complete (.mk .assignModify [lhs, rhs] (some (.op op)) type)

namespace Node

variable {known : ScopeVar → Prop} {n : Node}

/-- A variable that is formed is a known one. -/
theorem Formed.varNode (h : n.Formed known) (hop : n.op = .var) :
    ∃ v, known v ∧ n = Env.varNode v := by
  -- A node is no variable if its operator is fixed, or is one that takes operands.
  cases h with
  | var hv => exact ⟨_, hv, rfl⟩
  | literal l => cases l <;> cases hop
  | @unary op x hunary =>
      obtain rfl : op = .var := hop
      exact absurd hunary (by decide)
  | @binary op x y type hbinary =>
      obtain rfl : op = .var := hop
      cases hbinary
  | _ => cases hop

/-- A formed node is complete. -/
theorem Formed.complete (h : n.Formed known) : n.Complete := by
  cases h with
  | interpolated type hparts =>
      exact .interpolated type fun p hp => (hparts p hp).imp_right fun ⟨bytes, hp⟩ =>
        ⟨bytes, hp ▸ rfl⟩
  | cast x hkeyword => exact .cast x hkeyword
  | unary x hop => exact .unary x none hop
  | binary x y type hop => exact .binary x y type hop
  | assignModify lhs rhs hop => exact .assignModify lhs rhs none hop
  | literal l => exact .literal l _
  | var _ => exact .var _ _
  | name s => exact .name s _
  | ternary cond x y => exact .ternary cond x y none
  | assign lhs rhs => exact .assign lhs rhs none
  | _ => constructor

/-- A formed node is formed where more variables are known. -/
theorem Formed.mono {known' : ScopeVar → Prop} (h : n.Formed known)
    (hle : ∀ v, known v → known' v) :
    n.Formed known' := by
  cases h with
  | var hv => exact .var (hle _ hv)
  | parens x type => exact .parens x type
  | literal l => exact .literal l
  | null type => exact .null type
  | name s => exact .name s
  | arrayLit elems type => exact .arrayLit elems type
  | tupleLit elems type => exact .tupleLit elems type
  | interpolated type h => exact .interpolated type h
  | new c type => exact .new c type
  | prop object field type => exact .prop object field type
  | call callee args type => exact .call callee args type
  | methodCall object method args type => exact .methodCall object method args type
  | index x key type => exact .index x key type
  | cast x h => exact .cast x h
  | ternary cond x y => exact .ternary cond x y
  | unary x h => exact .unary x h
  | binary x y type h => exact .binary x y type h
  | assign lhs rhs => exact .assign lhs rhs
  | assignModify lhs rhs h => exact .assignModify lhs rhs h

/-- The variables of an expression with formed nodes are known. -/
theorem Every.varNode (h : n.Every (Formed known)) {m : Node} (hm : m ∈ n.subterms)
    (hop : m.op = .var) : ∃ v, known v ∧ m = Env.varNode v :=
  (h m hm).varNode hop

end Node

end TypedPhp
