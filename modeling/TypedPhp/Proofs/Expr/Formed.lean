import TypedPhp.Proofs.Expr.Constant
import TypedPhp.Proofs.Syntax.Formed

set_option autoImplicit false

/-!
# Generated expressions are formed

Every node of a derived expression has what its operator needs, and every variable in it is visible
or the current object. Casts are the one place where this is not a matter of the grammar alone: the
parameters that ask for a cast must be of kinds with a keyword (`Param.Castable`).
-/

namespace TypedPhp

/-- A parameter whose arguments are cast is of a kind with literals. -/
def Param.Castable (p : Param) : Prop := p.mustCast = true → p.type.Literate

/-- Every parameter of a known function is castable. -/
def SymbolTable.Castable (t : SymbolTable) : Prop := ∀ f ∈ t.funcs, ∀ p ∈ f.params, p.Castable

/-- The variables that an expression can read: the visible ones and the current object. -/
def Env.Known (env : Env) (v : ScopeVar) : Prop :=
  v ∈ env.scope.visible ∨ ∃ c, env.currentClass = some c ∧ v = ⟨"this", .object c⟩

namespace Node.Every

variable {known : ScopeVar → Prop} {n : Node}

theorem lit (l : Literal) : Every (Formed known) (.lit l) := leaf (.literal l)

theorem var {v : ScopeVar} (hv : known v) : Every (Formed known) (Env.varNode v) := leaf (.var hv)

theorem name (s : String) : Every (Formed known) (.name s) := leaf (.name s)

theorem parens (h : n.Every (Formed known)) : n.parens.Every (Formed known) := one (.parens _ _) h

theorem asOperand (h : n.Every (Formed known)) : n.asOperand.Every (Formed known) :=
  of_eq_or_parens n.asOperand_eq h h.parens

theorem asPowerOperand (h : n.Every (Formed known)) : n.asPowerOperand.Every (Formed known) :=
  of_eq_or_parens n.asPowerOperand_eq h h.parens

theorem castTo (k : Primitive) (h : n.Every (Formed known)) :
    (Node.castTo k n).Every (Formed known) :=
  one (.cast _ (by cases k <;> rfl)) h

variable {x y : Node}

theorem operation {op : Op} (hop : op.isBinary = true) (hx : x.Every (Formed known))
    (hy : y.Every (Formed known)) : (Node.operation op x y).Every (Formed known) :=
  two (.binary _ _ _ hop) hx.asOperand hy.asOperand

theorem call {callee : String} {args : List Node} {type : Option Ty}
    (hargs : ∀ x ∈ args, x.Every (Formed known)) :
    Every (Formed known) (.mk .call (.name callee :: args) none type) :=
  node (Formed.call _ _ _) (List.forall_mem_cons.2 ⟨name callee, hargs⟩)

theorem masked {op : Op} (hop : op.isBinary = true) {mask : Literal} (hx : x.Every (Formed known))
    (hy : y.Every (Formed known)) :
    (binary op x.asOperand (binary .bitAnd y.asOperand (.lit mask)).parens).Every (Formed known) :=
  two (.binary _ _ _ hop) hx.asOperand (parens (two (.binary _ _ _ rfl) hy.asOperand (lit _)))

theorem power (hx : x.Every (Formed known)) (hy : y.Every (Formed known)) :
    (binary .exp x.asPowerOperand y.asPowerOperand).Every (Formed known) :=
  two (.binary _ _ _ rfl) hx.asPowerOperand hy.asPowerOperand

/-- A conditional expression, whose branches may stand in parentheses. -/
theorem conditional {x' y' : Node} (hx' : x' = x ∨ x' = x.parens) (hy' : y' = y ∨ y' = y.parens)
    (hn : n.Every (Formed known)) (hx : x.Every (Formed known)) (hy : y.Every (Formed known)) :
    (Node.ternary n.asOperand x' y').Every (Formed known) := by
  refine .node (.ternary _ _ _) (List.forall_mem_cons.2 ⟨hn.asOperand, forall_mem_pair ?_ ?_⟩)
  · exact of_eq_or_parens hx' hx hx.parens
  · exact of_eq_or_parens hy' hy hy.parens

theorem callTwo {callee : String} (hx : x.Every (Formed known)) (hy : y.Every (Formed known)) :
    (Node.call callee [x, y]).Every (Formed known) :=
  call (forall_mem_pair hx hy)

end Node.Every

variable {env : Env}

/-- Every node of an expression is formed. -/
abbrev Env.Formed (env : Env) (n : Node) : Prop := n.Every (Node.Formed env.Known)

/-! ## Leaves -/

theorem Env.known_this {c : ClassRef} (h : env.isCurrent c = true) :
    env.Known ⟨"this", .object c⟩ :=
  Or.inr ⟨c, eq_of_beq h, rfl⟩

theorem Env.formed_this {c : ClassRef} (h : env.isCurrent c = true) :
    env.Formed (.var "this" (.object c)) :=
  .var (Env.known_this h)

theorem Env.Reads.formed {t : Ty} {n : Node} (h : env.Reads t n) : env.Formed n := by
  obtain ⟨v, hv, -, rfl⟩ := h
  exact .var (Or.inl hv)

theorem Receives.formed {c : ClassRef} {n : Node} (h : Receives env c n) : env.Formed n := by
  cases h with
  | this hc => exact Env.formed_this hc
  | «variable» _ hread => exact hread.formed
  | fresh _ => exact .parens (.leaf (.new _ _))

theorem ReadsField.formed {t : Ty} {n : Node} (h : ReadsField env t n) : env.Formed n := by
  obtain ⟨-, hobject⟩ := h
  exact .one (.prop _ _ _) hobject.formed

/-- A string with variables in it is formed. -/
theorem Part.interpolated_formed {parts : List Node} {type : Option Ty}
    (h : ∀ p ∈ parts, Part env p) : env.Formed (.mk .interpolated parts none type) := by
  refine .node (.interpolated _ ?_) ?_
  · intro p hp
    cases h p hp with
    | «variable» hread =>
        obtain ⟨v, _, _, rfl⟩ := hread
        exact Or.inl rfl
    | text bytes => exact Or.inr ⟨bytes, rfl⟩
  · intro p hp
    cases h p hp with
    | «variable» hread => exact hread.formed
    | text bytes => exact .lit _

/-! ## Expressions -/

/-- An element of the shorter list has a partner. -/
theorem exists_mem_zip {α β : Type} : ∀ {as : List α} {bs : List β} {b : β},
    bs.length ≤ as.length → b ∈ bs → ∃ a, (a, b) ∈ as.zip bs
  | _, [], _, _, hb => nomatch hb
  | [], _ :: _, _, hlen, _ => absurd hlen (by simp)
  | a :: as, b :: bs, b', hlen, hb => by
      rw [List.zip_cons_cons]
      rcases List.mem_cons.1 hb with rfl | hb
      · exact ⟨a, List.mem_cons_self⟩
      · obtain ⟨a', ha⟩ := exists_mem_zip (Nat.le_of_succ_le_succ hlen) hb
        exact ⟨a', List.mem_cons_of_mem _ ha⟩

/-- What holds of each element of the shorter list beside its partner holds of all of them. -/
theorem forall_mem_of_zip {α β : Type} {P : α → Prop} {Q : β → Prop} {as : List α} {bs : List β}
    (hlen : bs.length ≤ as.length) (has : ∀ a ∈ as, P a)
    (h : ∀ a b, (a, b) ∈ as.zip bs → P a → Q b) : ∀ b ∈ bs, Q b := by
  intro b hb
  obtain ⟨a, hzip⟩ := exists_mem_zip hlen hb
  exact h a b hzip (has a (List.of_mem_zip hzip).1)

/-- The operators that the forms of a category use stand between two operands, or before one. -/
theorem ExprForm.Gives.op {f : ExprForm} {k : Primitive} (h : f.Gives k) :
    match f with
    | compare op | logical op | intArith op | intBits op | shift op | floatArith op =>
      op.isBinary = true
    | intUnary op => op ∈ Op.unary
    | _ => True := by
  have hbinary : ∀ op ∈ Op.comparisons ++ Op.connectives ++ Op.arithmetic ++ Op.bitwise ++
      Op.shifts, op.isBinary = true := by decide
  have hunary : ∀ op ∈ Op.signs, op ∈ Op.unary := by decide
  cases f with
  | compare op => exact hbinary op (by simp [h.2])
  | logical op => exact hbinary op (by simp [h.2])
  | intArith op => exact hbinary op (by simp [h.2])
  | intBits op => exact hbinary op (by simp [h.2])
  | shift op => exact hbinary op (by simp [h.2])
  | floatArith op => exact hbinary op (by simp [h.2])
  | intUnary op => exact hunary op h.2
  | _ => trivial

/-- What is needed for an expression that is derived for a goal to be formed. -/
def Goal.Sane : Goal → Prop
  | .form f => ∃ k : Primitive, f.Gives k
  | .argument p => p.Castable
  | .call f => ∀ p ∈ f.params, p.Castable
  | _ => True

/-- Every derived expression is formed, if the parameters of the known functions are castable.
-/
theorem Derives.formed (hcast : env.symbols.Castable) {b : Nat} {goal : Goal} {n : Node}
    (h : Derives env b goal n) : goal.Sane → env.Formed n := by
  -- A form takes its operators from the kinds it gives, so it is sane where it is offered.
  induction h with
  | literal _ | formLiteral _ | enumValue _ => exact fun _ => .lit _
  | bare hf _ ih => exact fun _ => ih ⟨_, hf.gives⟩
  | wrapped hf _ ih => exact fun _ => (ih ⟨_, hf.gives⟩).parens
  | compare _ _ _ ihx ihy | logical _ _ _ ihx ihy | intBits _ _ ihx ihy | floatArith _ _ ihx ihy =>
      exact fun ⟨_, hk⟩ => .operation hk.op (ihx trivial) (ihy trivial)
  | spaceship _ _ ihx ihy | concat _ _ ihx ihy =>
      exact fun _ => .operation rfl (ihx trivial) (ihy trivial)
  | logicalWord _ _ _ ihx ihy =>
      exact fun ⟨_, hk⟩ => .parens (.operation hk.op (ihx trivial) (ihy trivial))
  | intArith _ _ ihx ihy =>
      exact fun ⟨_, hk⟩ => .castTo _ (.parens (.operation hk.op (ihx trivial) (ihy trivial)))
  | shift _ _ ihx ihy => exact fun ⟨_, hk⟩ => .masked hk.op (ihx trivial) (ihy trivial)
  | intExp _ _ ihx ihy => exact fun _ => .castTo _ (.parens (.power (ihx trivial) (ihy trivial)))
  | not _ ih => exact fun _ => .one (.unary _ (by decide)) (ih trivial).asOperand
  | intUnary _ ih => exact fun ⟨_, hk⟩ => .one (.unary _ hk.op) (ih trivial).asOperand
  | cast _ ih => exact fun _ => .castTo _ (ih trivial).asOperand
  | ternary hx hy _ _ _ ihc ihx ihy =>
      exact fun _ => .parens (.conditional hx hy (ihc trivial) (ihx trivial) (ihy trivial))
  | floatsEqual _ _ _ ihx ihy => exact fun _ => .callTwo (ihx trivial) (ihy trivial)
  | floatsDiffer _ _ _ ihx ihy =>
      exact fun _ => .one (.unary _ (by decide)) (.callTwo (ihx trivial) (ihy trivial))
  | safeDiv _ _ ihx ihy | safeMod _ _ ihx ihy =>
      exact fun _ => .castTo _ (.callTwo (ihx trivial) (ihy trivial))
  | var hv _ => exact fun _ => .var (Or.inl hv)
  | formCall hf _ _ ih => exact fun _ => ih (hcast _ hf)
  | field hread => exact fun _ => hread.formed
  | tupleElem hv _ _ => exact fun _ => .two (.index _ _ _) (.var (Or.inl hv)) (.lit _)
  | nullCoalesce hread _ ih =>
      intro _
      exact .one (.parens _ _) (.two (.binary _ _ _ rfl) hread.formed (ih trivial).asOperand)
  | interpolated hparts => exact fun _ => Part.interpolated_formed hparts
  | stringIndex hread _ ih => exact fun _ => .two (.index _ _ _) hread.formed (ih trivial)
  | stringLast hread => exact fun _ => .two (.index _ _ _) hread.formed (.lit _)
  | mixedScalar _ ih | scalarValue _ ih | mixedValue _ ih | innerValue _ ih | leftValue _ ih
  | rightValue _ ih | plainArgument _ _ ih => exact fun _ => ih trivial
  | reused _ hread => exact fun _ => hread.formed
  | mixedArray _ _ ih | arrayValue _ ih =>
      exact fun _ => .node (.arrayLit _ _) fun x hx => ih x hx trivial
  | tupleValue hlen _ ih =>
      intro _
      exact .node (.tupleLit _ _)
        (forall_mem_of_zip (Nat.le_of_eq hlen.symm) (fun _ _ => trivial) ih)
  | newValue c => exact fun _ => .leaf (.new _ _)
  | nullValue t => exact fun _ => .leaf (.null _)
  -- The only cast to a type that no form fixes.
  | strictArgument hmust _ ih =>
      exact fun hp => .one (.cast _ (hp hmust).castKeyword) (ih trivial).asOperand
  | functionCall _ _ hlen _ ih => exact fun hp => .call (forall_mem_of_zip hlen hp ih)
  | methodCall _ hobject _ hlen _ ih =>
      intro hp
      exact .node (.methodCall _ _ _ _)
        (List.forall_mem_cons.2 ⟨hobject.formed, forall_mem_of_zip hlen hp ih⟩)

/-- A constant is formed, whatever can be read. -/
theorem ConstantOf.formed {known : ScopeVar → Prop} {t : Ty} {n : Node} (h : ConstantOf t n) :
    n.Every (Node.Formed known) := by
  induction h with
  | literal _ => exact .lit _
  | mixed _ => exact .lit _
  | enum _ => exact .lit _
  | array _ _ ih => exact .node (.arrayLit _ _) ih
  | null t => exact .leaf (.null _)
  | inner _ ih => exact ih
  | left _ ih => exact ih
  | right _ ih => exact ih

end TypedPhp
