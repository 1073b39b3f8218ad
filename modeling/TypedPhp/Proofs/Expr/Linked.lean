import TypedPhp.Proofs.Expr.Formed

set_option autoImplicit false

/-!
# References of generated expressions

The nodes that refer to something outside their tree are new objects, members of objects, and calls.
In a generated expression each of them refers to what the symbol table holds: a class of the table,
a field that can be used where it stands, a function or method with as many arguments as it takes;
or it is a call of a helper that belongs to an operator. The table has to be closed, and the types
that the expression is built for have to name its classes. The induction is made once, for every
condition that the surroundings admit over the classes that can be named (`Derives.every_over`).
-/

namespace TypedPhp

/-- The operators of nodes that refer to a class, a function or a member of an object. -/
def Op.refers : Op → Bool
  | .new | .prop | .call | .methodCall => true
  | _ => false

theorem Op.refers_of_isBinary {op : Op} (h : op.isBinary = true) : op.refers = false := by
  cases op <;> first | rfl | cases h

theorem Op.refers_of_mem_unary : ∀ op ∈ Op.unary, op.refers = false := by decide

/-- The helpers that operators call, with the numbers of their arguments. -/
def operatorHelpers : List (String × Nat) :=
  [("fuzz_float_eq", 2), ("fuzz_safe_div", 2), ("fuzz_safe_mod", 2)]

/-- What a node of an expression refers to is known in the surroundings, or it is a helper. -/
inductive Node.Linked (env : Env) (helpers : List (String × Nat)) : Node → Prop where
  | plain {n : Node} : n.op.refers = false → Linked env helpers n
  | new {c : ClassRef} (type : Option Ty) : env.symbols.classNames[c.id]? = some c.name →
      Linked env helpers (.mk .new [] (some (.ident c.name)) type)
  | prop {t : Ty} {c : ClassRef} {f : Field} {object : Node} : Accessible env t c f →
      Receives env c object → Linked env helpers ((Node.prop object f.name).withType t)
  | helper {name : String} {args : List Node} : (name, args.length) ∈ helpers →
      Linked env helpers (.call name args)
  | call {f : FuncType} {args : List Node} : f ∈ env.symbols.funcs → f.owner = none →
      f.minArgs ≤ args.length → args.length ≤ f.params.length →
      Linked env helpers ((Node.call f.name args).withType f.result)
  | methodCall {f : FuncType} {c : ClassRef} {object : Node} {args : List Node} :
      f ∈ env.symbols.funcs → f.owner = some c → Receives env c object →
      f.minArgs ≤ args.length → args.length ≤ f.params.length →
      Linked env helpers ((Node.methodCall object f.name args).withType f.result)

variable {env : Env} {helpers : List (String × Nat)} {n x y : Node}

/-- More helpers. -/
theorem Node.Linked.mono {more : List (String × Nat)} (h : n.Linked env helpers)
    (hle : ∀ p ∈ helpers, p ∈ more) : n.Linked env more := by
  cases h with
  | plain h => exact .plain h
  | new type h => exact .new type h
  | prop hf hobject => exact .prop hf hobject
  | helper h => exact .helper (hle _ h)
  | call hf howner hmin hmax => exact .call hf howner hmin hmax
  | methodCall hf howner hobject hmin hmax => exact .methodCall hf howner hobject hmin hmax

/-- Every node of an expression is linked. -/
abbrev Node.AllLinked (env : Env) (helpers : List (String × Nat)) (n : Node) : Prop :=
  n.Every (Node.Linked env helpers)

/-! ## Admitted conditions -/

/-- A plain node refers to nothing and has no name. -/
def Node.Plain (n : Node) : Prop := n.op.refers = false ∧ n.ident? = none

/-- The class of a reference stands in a table, under its index and with its name. -/
def SymbolTable.Knows (t : SymbolTable) (c : ClassRef) : Prop := t.classNames[c.id]? = some c.name

/-- What a table refers to satisfies a condition on classes. -/
structure SymbolTable.RefersTo (C : ClassRef → Prop) (t : SymbolTable) : Prop where
  params : ∀ f ∈ t.funcs, ∀ p ∈ f.params, p.type.ClassesIn C
  owners : ∀ f ∈ t.funcs, ∀ c, f.owner = some c → C c
  listed : ∀ c, t.Knows c → C c

theorem SymbolTable.Closed.refersTo {t : SymbolTable} (h : t.Closed) : t.RefersTo t.Knows :=
  ⟨fun f hf p hp => (h.within f hf p hp).known, h.owned, fun _ hc => hc⟩

theorem SymbolTable.refersTo_any (t : SymbolTable) : t.RefersTo fun _ => True :=
  ⟨fun _ _ _ _ _ _ => trivial, fun _ _ _ _ => trivial, fun _ _ => trivial⟩

/-- A condition on nodes is admitted by the surroundings, over the classes that can be named, if
it holds of plain nodes, of variables that can be read, of the names that can be called, of new
objects of these classes, and of what refers to the table. It then holds of every node that is
generated. -/
structure Env.AdmitsOver (C : ClassRef → Prop) (env : Env) (P : Node → Prop) : Prop where
  plain : ∀ n : Node, n.Plain → P n
  var : ∀ v, env.Known v → P (Env.varNode v)
  helper : ∀ e ∈ operatorHelpers, P (.name e.1)
  function : ∀ f ∈ env.symbols.funcs, P (.name f.name)
  new : ∀ c, C c → ∀ type, P (.mk .new [] (some (.ident c.name)) type)
  linked : ∀ n : Node, n.op.refers = true → n.Linked env operatorHelpers → P n

/-- A condition is admitted if it is over the classes of the table. -/
abbrev Env.Admits (env : Env) (P : Node → Prop) : Prop := env.AdmitsOver env.symbols.Knows P

/-- To be linked is admitted, where the helpers of operators may be called. -/
theorem Node.Linked.admitted (h : ∀ e ∈ operatorHelpers, e ∈ helpers) :
    env.Admits (Node.Linked env helpers) where
  plain := fun _ hn => .plain hn.1
  var := fun _ _ => .plain rfl
  helper := fun _ _ => .plain rfl
  function := fun _ _ => .plain rfl
  new := fun _ hc type => .new type hc
  linked := fun _ _ hn => hn.mono h

variable {C : ClassRef → Prop} {P : Node → Prop}

namespace Env.AdmitsOver

variable (hP : env.AdmitsOver C P)

include hP

theorem leaf {op : Op} {payload : Option Payload} {type : Option Ty}
    (h : (Node.mk op [] payload type).Plain) : (Node.mk op [] payload type).Every P :=
  Node.Every.leaf (hP.plain _ h)

theorem one {op : Op} {payload : Option Payload} {type : Option Ty}
    (h : (Node.mk op [x] payload type).Plain) (hx : x.Every P) :
    (Node.mk op [x] payload type).Every P :=
  Node.Every.one (hP.plain _ h) hx

theorem two {op : Op} {payload : Option Payload} {type : Option Ty}
    (h : (Node.mk op [x, y] payload type).Plain) (hx : x.Every P) (hy : y.Every P) :
    (Node.mk op [x, y] payload type).Every P :=
  Node.Every.two (hP.plain _ h) hx hy

theorem lit (l : Literal) : (Node.lit l).Every P := by
  cases l <;> exact hP.leaf ⟨rfl, rfl⟩

theorem known {v : ScopeVar} (h : env.Known v) : (Env.varNode v).Every P :=
  Node.Every.leaf (hP.var v h)

theorem parens (h : n.Every P) : n.parens.Every P := hP.one ⟨rfl, rfl⟩ h

theorem asOperand (h : n.Every P) : n.asOperand.Every P :=
  Node.of_eq_or_parens n.asOperand_eq h (hP.parens h)

theorem asPowerOperand (h : n.Every P) : n.asPowerOperand.Every P :=
  Node.of_eq_or_parens n.asPowerOperand_eq h (hP.parens h)

theorem castTo (k : Primitive) (h : n.Every P) : (Node.castTo k n).Every P := hP.one ⟨rfl, rfl⟩ h

theorem operation {op : Op} (hop : op.isBinary = true) (hx : x.Every P) (hy : y.Every P) :
    (Node.operation op x y).Every P :=
  hP.two ⟨Op.refers_of_isBinary hop, rfl⟩ (hP.asOperand hx) (hP.asOperand hy)

theorem masked {op : Op} (hop : op.isBinary = true) {mask : Literal} (hx : x.Every P)
    (hy : y.Every P) :
    (Node.binary op x.asOperand (Node.binary .bitAnd y.asOperand (.lit mask)).parens).Every P := by
  refine hP.two ⟨Op.refers_of_isBinary hop, rfl⟩ (hP.asOperand hx) (hP.parens ?_)
  exact hP.two ⟨rfl, rfl⟩ (hP.asOperand hy) (hP.lit mask)

theorem power (hx : x.Every P) (hy : y.Every P) :
    (Node.binary .exp x.asPowerOperand y.asPowerOperand).Every P :=
  hP.two ⟨rfl, rfl⟩ (hP.asPowerOperand hx) (hP.asPowerOperand hy)

/-- A conditional expression, whose branches may stand in parentheses. -/
theorem ternary {x' y' : Node} (hx' : x' = x ∨ x' = x.parens) (hy' : y' = y ∨ y' = y.parens)
    (hn : n.Every P) (hx : x.Every P) (hy : y.Every P) :
    (Node.ternary n.asOperand x' y').Every P := by
  refine .node (hP.plain _ ⟨rfl, rfl⟩)
    (List.forall_mem_cons.2 ⟨hP.asOperand hn, forall_mem_pair ?_ ?_⟩)
  · exact Node.of_eq_or_parens hx' hx (hP.parens hx)
  · exact Node.of_eq_or_parens hy' hy (hP.parens hy)

theorem callHelper {callee : String} (h : (callee, 2) ∈ operatorHelpers) (hx : x.Every P)
    (hy : y.Every P) : (Node.call callee [x, y]).Every P := by
  refine Node.Every.node (hP.linked _ rfl (.helper h)) (List.forall_mem_cons.2 ⟨?_, ?_⟩)
  · exact Node.Every.leaf (hP.helper _ h)
  · exact forall_mem_pair hx hy

end Env.AdmitsOver

/-! ## Leaves -/

theorem Env.Reads.every (hP : env.AdmitsOver C P) {t : Ty} (h : env.Reads t n) : n.Every P := by
  obtain ⟨v, hv, -, rfl⟩ := h
  exact hP.known (Or.inl hv)

/-- What is admitted holds of a received object of a class that can be named. -/
theorem Receives.every (hP : env.AdmitsOver C P) {c : ClassRef} (hc : C c)
    (h : Receives env c n) : n.Every P := by
  cases h with
  | this hthis => exact hP.known (Env.known_this hthis)
  | «variable» _ hread => exact hread.every hP
  | fresh _ => exact hP.parens (Node.Every.leaf (hP.new _ hc _))

theorem Accessible.className {t : Ty} {c : ClassRef} {f : Field} (h : Accessible env t c f) :
    env.symbols.classNames[c.id]? = some c.name := by
  obtain ⟨cls, hget, hname, -⟩ := h.known
  rw [SymbolTable.classNames_of_getElem? hget, hname]

theorem Accessible.every (hP : env.AdmitsOver C P) {t : Ty} {c : ClassRef} {f : Field}
    {object : Node} (hf : Accessible env t c f) (hc : C c) (hobject : Receives env c object) :
    ((Node.prop object f.name).withType t).Every P :=
  Node.Every.one (hP.linked _ rfl (.prop hf hobject)) (hobject.every hP hc)

theorem ReadsField.every (ht : env.symbols.RefersTo C) (hP : env.AdmitsOver C P) {t : Ty}
    (h : ReadsField env t n) : n.Every P := by
  obtain ⟨hf, hobject⟩ := h
  exact hf.every hP (ht.listed _ hf.className) hobject

/-- What is admitted holds of a string with variables in it. -/
theorem Part.interpolated_every (hP : env.AdmitsOver C P) {parts : List Node} {type : Option Ty}
    (h : ∀ p ∈ parts, Part env p) : (Node.mk .interpolated parts none type).Every P := by
  refine .node (hP.plain _ ⟨rfl, rfl⟩) fun p hp => ?_
  cases h p hp with
  | «variable» hread => exact hread.every hP
  | text bytes => exact hP.lit _

/-! ## Expressions -/

/-- What is needed of a goal for the expressions that are derived for it to be linked: its types
name known classes, and its functions are known. -/
def Goal.Known (env : Env) : Goal → Prop
  | .form f => ∃ k : Primitive, f.Gives k
  | .value t => t.Within env.symbols.classNames
  | .argument p => p.type.Within env.symbols.classNames
  | .call f => f ∈ env.symbols.funcs
  | _ => True

/-- What is needed of a goal over the classes that can be named: its types name such classes, and
its functions are known. -/
def Goal.Over (C : ClassRef → Prop) (env : Env) : Goal → Prop
  | .form f => ∃ k : Primitive, f.Gives k
  | .value t => t.ClassesIn C
  | .argument p => p.type.ClassesIn C
  | .call f => f ∈ env.symbols.funcs
  | _ => True

/-- A known goal is one over the classes of the table. -/
theorem Goal.Known.over {goal : Goal} (h : goal.Known env) : goal.Over env.symbols.Knows env := by
  cases goal with
  | value t => exact Ty.Within.known h
  | argument p => exact Ty.Within.known h
  | _ => exact h

/-- What is admitted holds of every node of a derived expression. -/
theorem Derives.every_over (ht : env.symbols.RefersTo C) (hP : env.AdmitsOver C P) {b : Nat}
    {goal : Goal} (h : Derives env b goal n) : goal.Over C env → n.Every P := by
  -- Types and functions are handed down from goal to goal; what a form refers to is in the table.
  induction h with
  | literal _ | formLiteral _ | enumValue _ => exact fun _ => hP.lit _
  | bare hf _ ih => exact fun _ => ih ⟨_, hf.gives⟩
  | wrapped hf _ ih => exact fun _ => hP.parens (ih ⟨_, hf.gives⟩)
  | compare _ _ _ ihx ihy | logical _ _ _ ihx ihy | intBits _ _ ihx ihy | floatArith _ _ ihx ihy =>
      exact fun ⟨_, hk⟩ => hP.operation hk.op (ihx trivial) (ihy trivial)
  | spaceship _ _ ihx ihy | concat _ _ ihx ihy =>
      exact fun _ => hP.operation rfl (ihx trivial) (ihy trivial)
  | logicalWord _ _ _ ihx ihy =>
      exact fun ⟨_, hk⟩ => hP.parens (hP.operation hk.op (ihx trivial) (ihy trivial))
  | intArith _ _ ihx ihy =>
      exact fun ⟨_, hk⟩ => hP.castTo _ (hP.parens (hP.operation hk.op (ihx trivial) (ihy trivial)))
  | shift _ _ ihx ihy => exact fun ⟨_, hk⟩ => hP.masked hk.op (ihx trivial) (ihy trivial)
  | intExp _ _ ihx ihy =>
      exact fun _ => hP.castTo _ (hP.parens (hP.power (ihx trivial) (ihy trivial)))
  | not _ ih => exact fun _ => hP.one ⟨rfl, rfl⟩ (hP.asOperand (ih trivial))
  | intUnary _ ih =>
      rintro ⟨k, hk⟩
      exact hP.one ⟨Op.refers_of_mem_unary _ hk.op, rfl⟩ (hP.asOperand (ih trivial))
  | cast _ ih => exact fun _ => hP.castTo _ (hP.asOperand (ih trivial))
  | ternary hx hy _ _ _ ihc ihx ihy =>
      exact fun _ => hP.parens (hP.ternary hx hy (ihc trivial) (ihx trivial) (ihy trivial))
  | floatsEqual _ _ _ ihx ihy =>
      exact fun _ => hP.callHelper (by decide) (ihx trivial) (ihy trivial)
  | floatsDiffer _ _ _ ihx ihy =>
      exact fun _ => hP.one ⟨rfl, rfl⟩ (hP.callHelper (by decide) (ihx trivial) (ihy trivial))
  | safeDiv _ _ ihx ihy | safeMod _ _ ihx ihy =>
      exact fun _ => hP.castTo _ (hP.callHelper (by decide) (ihx trivial) (ihy trivial))
  | var hv _ => exact fun _ => hP.known (Or.inl hv)
  | formCall hf _ _ ih => exact fun _ => ih hf
  | field hread => exact fun _ => hread.every ht hP
  | tupleElem hv _ _ => exact fun _ => hP.two ⟨rfl, rfl⟩ (hP.known (Or.inl hv)) (hP.lit _)
  | nullCoalesce hread _ ih =>
      intro _
      exact hP.one ⟨rfl, rfl⟩ (hP.two ⟨rfl, rfl⟩ (hread.every hP) (hP.asOperand (ih trivial)))
  | interpolated hparts => exact fun _ => Part.interpolated_every hP hparts
  | stringIndex hread _ ih =>
      exact fun _ => hP.two ⟨rfl, rfl⟩ (hread.every hP) (ih trivial)
  | stringLast hread => exact fun _ => hP.two ⟨rfl, rfl⟩ (hread.every hP) (hP.lit _)
  | mixedScalar _ ih | scalarValue _ ih | mixedValue _ ih => exact fun _ => ih trivial
  | mixedArray _ _ ih =>
      exact fun _ => .node (hP.plain _ ⟨rfl, rfl⟩) fun x hx => ih x hx trivial
  | reused _ hread => exact fun _ => hread.every hP
  | arrayValue _ ih =>
      exact fun hC => .node (hP.plain _ ⟨rfl, rfl⟩) fun x hx => ih x hx hC
  | tupleValue hlen _ ih =>
      intro hC
      exact .node (hP.plain _ ⟨rfl, rfl⟩)
        (forall_mem_of_zip (Nat.le_of_eq hlen.symm) (fun _ => Ty.ClassesIn.member hC) ih)
  | newValue c => exact fun hC => Node.Every.leaf (hP.new c (Ty.ClassesIn.object hC) _)
  | nullValue t => exact fun _ => hP.leaf ⟨rfl, rfl⟩
  | innerValue _ ih => exact fun hC => ih hC
  | leftValue _ ih => exact fun hC => ih (Ty.ClassesIn.left hC)
  | rightValue _ ih => exact fun hC => ih (Ty.ClassesIn.right hC)
  | plainArgument _ _ ih => exact fun hp => ih hp
  | strictArgument _ _ ih => exact fun hp => hP.one ⟨rfl, rfl⟩ (hP.asOperand (ih hp))
  | functionCall howner hmin hmax _ ih =>
      intro hf
      have hargs := forall_mem_of_zip hmax (ht.params _ hf) ih
      exact .node (hP.linked _ rfl (.call hf howner hmin hmax))
        (List.forall_mem_cons.2 ⟨Node.Every.leaf (hP.function _ hf), hargs⟩)
  | methodCall howner hobject hmin hmax _ ih =>
      intro hf
      have hargs := forall_mem_of_zip hmax (ht.params _ hf) ih
      exact .node (hP.linked _ rfl (.methodCall hf howner hobject hmin hmax))
        (List.forall_mem_cons.2 ⟨hobject.every hP (ht.owners _ hf _ howner), hargs⟩)

theorem Derives.every (hclosed : env.symbols.Closed) (hP : env.Admits P) {b : Nat} {goal : Goal}
    (h : Derives env b goal n) (hgoal : goal.Known env) : n.Every P :=
  h.every_over hclosed.refersTo hP hgoal.over

/-- Every derived expression is linked, if the table is closed. -/
theorem Derives.linked (hclosed : env.symbols.Closed) {b : Nat} {goal : Goal}
    (h : Derives env b goal n) (hgoal : goal.Known env) : n.AllLinked env operatorHelpers :=
  h.every hclosed (Node.Linked.admitted fun _ he => he) hgoal

/-- The nodes of a constant are plain. -/
theorem ConstantOf.plain {t : Ty} (h : ConstantOf t n) : n.Every Node.Plain := by
  have hlit : ∀ l : Literal, (Node.lit l).Every Node.Plain := by
    intro l
    cases l <;> exact Node.Every.leaf ⟨rfl, rfl⟩
  induction h with
  | literal _ => exact hlit _
  | mixed _ => exact hlit _
  | enum _ => exact hlit _
  | array _ _ ih => exact .node ⟨rfl, rfl⟩ ih
  | null t => exact .leaf ⟨rfl, rfl⟩
  | inner _ ih => exact ih
  | left _ ih => exact ih
  | right _ ih => exact ih

theorem ConstantOf.every (hP : env.AdmitsOver C P) {t : Ty} (h : ConstantOf t n) : n.Every P :=
  h.plain.mono hP.plain

end TypedPhp
