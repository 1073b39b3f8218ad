import TypedPhp.Proofs.Expr.Typing

set_option autoImplicit false

/-!
# Height of generated expressions

An expression of a type is always drawn, and the budget bounds how high its tree is. A form puts at
most four levels on top of its operands and the parentheses around it are one more, so a unit of
budget is worth five levels. What is not paid for by the budget comes from types: an array or tuple
is as high as its type is nested, and arguments of calls are built for the types of parameters. The
main result is `Generator.value_height_le`.
-/

namespace TypedPhp

/-! ## Heights of trees -/

namespace Node

mutual

/-- The height of a tree; a leaf counts one. -/
def height : Node → Nat
  | mk _ args _ _ => heightList args + 1

/-- The height of the highest of several trees. -/
def heightList : List Node → Nat
  | [] => 0
  | n :: ns => max (height n) (heightList ns)

end

/-- Trees are together as high as the highest of them. -/
theorem heightList_le_iff {ns : List Node} {h : Nat} :
    heightList ns ≤ h ↔ ∀ n ∈ ns, n.height ≤ h := by
  induction ns with
  | nil => simp [heightList]
  | cons n ns ih => rw [heightList, Nat.max_le, ih, List.forall_mem_cons]

@[simp] theorem height_mk (op : Op) (args : List Node) (payload : Option Payload)
    (type : Option Ty) : (mk op args payload type).height = heightList args + 1 := by
  rw [height]

@[simp] theorem heightList_nil : heightList [] = 0 := by rw [heightList]

@[simp] theorem heightList_cons (n : Node) (ns : List Node) :
    heightList (n :: ns) = max n.height (heightList ns) := by
  rw [heightList]

@[simp] theorem height_withType (n : Node) (t : Ty) : (n.withType t).height = n.height := by
  obtain ⟨op, args, payload, type⟩ := n
  simp [withType, Node.args]

@[simp] theorem height_lit (l : Literal) : (lit l).height = 1 := by simp [lit]

@[simp] theorem height_intLit (v : Int64) : (intLit v).height = 1 := height_lit _

@[simp] theorem height_varNode (v : ScopeVar) : (Env.varNode v).height = 1 := by
  simp [Env.varNode, var]

@[simp] theorem height_ofArgs (op : Op) (args : List Node) :
    (ofArgs op args).height = heightList args + 1 := by
  simp [ofArgs]

@[simp] theorem height_parens (x : Node) : x.parens.height = x.height + 1 := by simp [parens]

@[simp] theorem height_unary (op : Op) (x : Node) : (unary op x).height = x.height + 1 := by
  simp [unary]

@[simp] theorem height_binary (op : Op) (x y : Node) :
    (binary op x y).height = max x.height y.height + 1 := by
  simp [binary]

@[simp] theorem height_cast (t : Ty) (x : Node) : (cast t x).height = x.height + 1 := by
  simp [cast]

@[simp] theorem height_index (x key : Node) :
    (index x key).height = max x.height key.height + 1 := by
  simp [index]

@[simp] theorem height_ternary (cond x y : Node) :
    (ternary cond x y).height = max cond.height (max x.height y.height) + 1 := by
  simp [ternary]

@[simp] theorem height_castTo (k : Primitive) (x : Node) :
    (castTo k x).height = x.height + 1 := by
  simp [castTo]

@[simp] theorem height_call (callee : String) (args : List Node) :
    (call callee args).height = max 1 (heightList args) + 1 := by
  simp [call, name]

theorem height_le_of_eq_or_parens {n x : Node} (h : x = n ∨ x = n.parens) :
    x.height ≤ n.height + 1 := by
  rcases h with rfl | rfl <;> simp

theorem height_asOperand_le (n : Node) : n.asOperand.height ≤ n.height + 1 :=
  height_le_of_eq_or_parens n.asOperand_eq

theorem height_asPowerOperand_le (n : Node) : n.asPowerOperand.height ≤ n.height + 1 :=
  height_le_of_eq_or_parens n.asPowerOperand_eq

/-- Trees that stand beside the entries of a longer list are bounded if each is beside its entry. -/
theorem heightList_le_of_zip {α : Type} {as : List α} {ns : List Node} {h : Nat}
    (hlen : ns.length ≤ as.length) (hns : ∀ a n, (a, n) ∈ as.zip ns → n.height ≤ h) :
    heightList ns ≤ h := by
  apply heightList_le_iff.2
  intro n hn
  obtain ⟨i, hi, rfl⟩ := List.getElem_of_mem hn
  have hzip : i < (as.zip ns).length := by rw [List.length_zip]; omega
  apply hns as[i]
  rw [← List.getElem_zip (h := hzip)]
  exact List.getElem_mem hzip

/-! The levels that the forms of expressions put on top of their operands. -/

section Forms

variable {op : Op} {k : Primitive} {cond x y x' y' : Node} {h : Nat}

/-- An operation is at most two levels higher than its operands. -/
theorem height_operation_le (hx : x.height ≤ h) (hy : y.height ≤ h) :
    (operation op x y).height ≤ h + 2 := by
  have hx' := x.height_asOperand_le
  have hy' := y.height_asOperand_le
  rw [operation, height_binary]
  omega

theorem height_parens_operation_le (hx : x.height ≤ h) (hy : y.height ≤ h) :
    (operation op x y).parens.height ≤ h + 3 := by
  rw [height_parens]
  exact Nat.succ_le_succ (height_operation_le hx hy)

theorem height_castTo_operation_le (hx : x.height ≤ h) (hy : y.height ≤ h) :
    (castTo k (operation op x y).parens).height ≤ h + 4 := by
  rw [height_castTo]
  exact Nat.succ_le_succ (height_parens_operation_le hx hy)

/-- A power has operands of its own kind. -/
theorem height_power_le (hx : x.height ≤ h) (hy : y.height ≤ h) :
    (castTo k (binary .exp x.asPowerOperand y.asPowerOperand).parens).height ≤ h + 4 := by
  have hx' := x.height_asPowerOperand_le
  have hy' := y.height_asPowerOperand_le
  rw [height_castTo, height_parens, height_binary]
  omega

/-- The distance of a shift is masked, in parentheses. -/
theorem height_shift_le (hx : x.height ≤ h) (hy : y.height ≤ h) {mask : Int64} :
    (binary op x.asOperand (binary .bitAnd y.asOperand (intLit mask)).parens).height ≤ h + 4 := by
  have hx' := x.height_asOperand_le
  have hy' := y.height_asOperand_le
  simp only [height_binary, height_parens, height_intLit]
  omega

theorem height_unary_asOperand_le (hx : x.height ≤ h) : (unary op x.asOperand).height ≤ h + 2 := by
  have hx' := x.height_asOperand_le
  rw [height_unary]
  omega

theorem height_castTo_asOperand_le (hx : x.height ≤ h) :
    (castTo k x.asOperand).height ≤ h + 2 := by
  have hx' := x.height_asOperand_le
  rw [height_castTo]
  omega

theorem height_ternary_le (hx' : x' = x ∨ x' = x.parens) (hy' : y' = y ∨ y' = y.parens)
    (hcond : cond.height ≤ h) (hx : x.height ≤ h) (hy : y.height ≤ h) :
    (ternary cond.asOperand x' y').parens.height ≤ h + 3 := by
  have hcond' := cond.height_asOperand_le
  replace hx' := height_le_of_eq_or_parens hx'
  replace hy' := height_le_of_eq_or_parens hy'
  rw [height_parens, height_ternary]
  omega

theorem height_helper_le (callee : String) (hx : x.height ≤ h) (hy : y.height ≤ h) :
    (call callee [x, y]).height ≤ h + 2 := by
  simp only [height_call, heightList_cons, heightList_nil]
  omega

theorem height_unary_helper_le (callee : String) (hx : x.height ≤ h) (hy : y.height ≤ h) :
    (unary op (call callee [x, y])).height ≤ h + 3 := by
  rw [height_unary]
  exact Nat.succ_le_succ (height_helper_le callee hx hy)

theorem height_castTo_helper_le (callee : String) (hx : x.height ≤ h) (hy : y.height ≤ h) :
    (castTo k (call callee [x, y])).height ≤ h + 3 := by
  rw [height_castTo]
  exact Nat.succ_le_succ (height_helper_le callee hx hy)

end Forms

end Node

/-! ## Nesting of types -/

namespace Ty

mutual

/-- The greatest number of array and tuple types on a path in a type. -/
def nesting : Ty → Nat
  | array elem => elem.nesting + 1
  | tuple elems => nestingList elems + 1
  | nullable inner => inner.nesting
  | union x y => max x.nesting y.nesting
  | scalar _ | object _ | callable _ | enum _ => 0

/-- The nesting of the most nested of several types. -/
def nestingList : List Ty → Nat
  | [] => 0
  | t :: ts => max t.nesting (nestingList ts)

end

/-- Types are together as nested as the most nested of them. -/
theorem nestingList_le_iff {ts : List Ty} {k : Nat} :
    nestingList ts ≤ k ↔ ∀ t ∈ ts, t.nesting ≤ k := by
  induction ts with
  | nil => simp [nestingList]
  | cons t ts ih => rw [nestingList, Nat.max_le, ih, List.forall_mem_cons]

end Ty

/-- The nesting of the most nested parameter type of a function. -/
def FuncType.paramNesting (f : FuncType) : Nat := Ty.nestingList (f.params.map (·.type))

/-- The nesting of the most nested parameter type of a table. -/
def SymbolTable.paramNesting (t : SymbolTable) : Nat :=
  Ty.nestingList (t.funcs.flatMap fun f => f.params.map (·.type))

theorem FuncType.nesting_le_paramNesting {f : FuncType} {p : Param} (hp : p ∈ f.params) :
    p.type.nesting ≤ f.paramNesting :=
  Ty.nestingList_le_iff.1 (Nat.le_refl _) p.type (List.mem_map_of_mem hp)

/-- A function of a table has no parameter type nested deeper than the most nested one there. -/
theorem SymbolTable.funcNesting_le {t : SymbolTable} {f : FuncType} (hf : f ∈ t.funcs) :
    f.paramNesting ≤ t.paramNesting := by
  apply Ty.nestingList_le_iff.2
  intro ty hty
  exact Ty.nestingList_le_iff.1 (Nat.le_refl _) ty (List.mem_flatMap.2 ⟨f, hf, hty⟩)

/-! ## Bounds of goals -/

/-- How high an expression of a category is within a budget, where the parameter types of the
functions are nested up to `depth` levels deep. -/
def exprHeight (depth : Nat) : (budget : Nat) → Nat
  | 0 => 1
  | budget + 1 => 5 * (budget + 1) + depth + 1

/-- How high an expression that is derived for a goal is within a budget. -/
def Goal.heightBound (depth budget : Nat) : Goal → Nat
  | .category _ | .mixed _ => exprHeight depth budget
  | .form _ => 5 * (budget + 1) + depth
  | .value t => max (exprHeight depth budget) (t.nesting + 1)
  | .argument p => max (exprHeight depth budget) (p.type.nesting + 1) + 2
  | .call f => max (exprHeight depth (budget - 1)) (f.paramNesting + 1) + 3

section Bounds

variable (depth budget : Nat)

theorem one_le_exprHeight : 1 ≤ exprHeight depth budget := by
  cases budget <;> simp [exprHeight]

theorem exprHeight_add_four_le : exprHeight depth budget + 4 ≤ 5 * (budget + 1) + depth := by
  cases budget <;> simp only [exprHeight] <;> omega

/-- One less budget leaves at least one level less, if there is a budget. -/
theorem exprHeight_pred_add_one_le (h : 0 < budget) :
    exprHeight depth (budget - 1) + 1 ≤ exprHeight depth budget := by
  match budget, h with
  | 1, _ =>
      change 1 + 1 ≤ 5 * 1 + depth + 1
      omega
  | budget + 2, _ =>
      change 5 * (budget + 1) + depth + 1 + 1 ≤ 5 * (budget + 2) + depth + 1
      omega

theorem exprHeight_pred_le : exprHeight depth (budget - 1) ≤ exprHeight depth budget := by
  cases budget with
  | zero => exact Nat.le_refl _
  | succ budget => exact Nat.le_of_succ_le (exprHeight_pred_add_one_le depth _ (Nat.succ_pos _))

theorem exprHeight_le : exprHeight depth budget ≤ 5 * budget + depth + 1 := by
  cases budget <;> simp only [exprHeight] <;> omega

end Bounds

/-! ## Heights of derived expressions -/

variable {env : Env}

theorem Env.Reads.height_eq {t : Ty} {n : Node} (h : env.Reads t n) : n.height = 1 := by
  obtain ⟨v, _, _, rfl⟩ := h
  exact Node.height_varNode v

/-- An object is a leaf, in parentheses if it is new. -/
theorem Receives.height_le {c : ClassRef} {n : Node} (h : Receives env c n) : n.height ≤ 2 := by
  cases h with
  | this _ => simp [Node.var]
  | «variable» _ hread => simp [hread.height_eq]
  | fresh _ => simp [Node.newObject]

theorem Part.height_eq {n : Node} (h : Part env n) : n.height = 1 := by
  cases h with
  | «variable» hread => exact hread.height_eq
  | text bytes => exact Node.height_lit _

theorem Goal.one_le_heightBound_value {t : Ty} {H b : Nat} :
    1 ≤ (Goal.value t).heightBound H b :=
  Nat.le_trans (one_le_exprHeight H b) (Nat.le_max_left _ _)

/-- The elements of an array or tuple are built with one less budget for a type that is nested one
level less. Without budget it is the type that pays for the level. -/
theorem succ_le_max_exprHeight {H b k h : Nat} (hle : h ≤ max (exprHeight H (b - 1)) (k + 1)) :
    h + 1 ≤ max (exprHeight H b) (k + 1 + 1) := by
  rcases Nat.eq_zero_or_pos b with rfl | hb
  · have hleaf : exprHeight H (0 - 1) = 1 := rfl
    omega
  · have hpred := exprHeight_pred_add_one_le H b hb
    omega

/-- The arguments of a call are built for the parameters of the function. -/
theorem height_arguments_le {f : FuncType} {args : List Node} {H b : Nat}
    (hlen : args.length ≤ f.params.length)
    (hargs : ∀ p x, (p, x) ∈ f.params.zip args → x.height ≤ (Goal.argument p).heightBound H b) :
    Node.heightList args ≤ max (exprHeight H b) (f.paramNesting + 1) + 2 := by
  apply Node.heightList_le_of_zip hlen
  intro p x hx
  have hx' : x.height ≤ max (exprHeight H b) (p.type.nesting + 1) + 2 := hargs p x hx
  have hp := FuncType.nesting_le_paramNesting (List.of_mem_zip hx).1
  omega

/-- A form puts at most four levels on top of its operands. -/
theorem Goal.le_heightBound_form {f : ExprForm} {H b h k : Nat} (hk : k ≤ 4)
    (hle : h ≤ exprHeight H b + k) : h ≤ (Goal.form f).heightBound H b :=
  calc h ≤ exprHeight H b + k := hle
    _ ≤ exprHeight H b + 4 := Nat.add_le_add_left hk _
    _ ≤ 5 * (b + 1) + H := exprHeight_add_four_le H b

/-! The forms that read something from the surroundings. -/

section Reads

variable {H b : Nat} {t : Ty} {s y key : Node} {parts : List Node}

theorem ReadsField.height_le {n : Node} (h : ReadsField env t n) : n.height ≤ 3 := by
  obtain ⟨_, hobject⟩ := h
  have hobject := hobject.height_le
  simp only [Node.prop, Node.height_withType, Node.height_mk, Node.heightList_cons,
    Node.heightList_nil]
  omega

/-- The parts of an interpolated string are leaves. -/
theorem height_interpolated_le (hparts : ∀ p ∈ parts, Part env p) :
    ((Node.ofArgs .interpolated parts).withType t).height ≤ 2 := by
  have hall : Node.heightList parts ≤ 1 :=
    Node.heightList_le_iff.2 fun p hp => Nat.le_of_eq (hparts p hp).height_eq
  rw [Node.height_withType, Node.height_ofArgs]
  exact Nat.succ_le_succ hall

theorem Env.Reads.height_index_le (hread : env.Reads t s) (hkey : key.height ≤ exprHeight H b) :
    (Node.index s key).height ≤ exprHeight H b + 1 := by
  have hleaf := one_le_exprHeight H b
  rw [Node.height_index, hread.height_eq]
  omega

theorem Env.Reads.height_nullCoalesce_le (hread : env.Reads t s) (hy : y.height ≤ exprHeight H b) :
    (Node.binary .nullCoalesce s y.asOperand).parens.height ≤ exprHeight H b + 3 := by
  have hy' := y.height_asOperand_le
  rw [Node.height_parens, Node.height_binary, hread.height_eq]
  omega

/-- A call is as high as its arguments need, which have types of their own. -/
theorem height_call_le_form {f : FuncType} {n : Node} {form : ExprForm} (hf : f.paramNesting ≤ H)
    (h : n.height ≤ (Goal.call f).heightBound H b) :
    n.height ≤ (Goal.form form).heightBound H b := by
  have hpred := exprHeight_pred_le H b
  have hbound := exprHeight_le H b
  simp only [Goal.heightBound] at h ⊢
  omega

end Reads

/-! Values that have elements or members. -/

section Values

variable {H b : Nat} {t u : Ty} {n : Node} {elems : List Node} {ts : List Ty}

theorem height_mixedArray_le (hb : 2 ≤ b) (h : ∀ x ∈ elems, x.height ≤ exprHeight H (b - 1)) :
    ((Node.ofArgs .arrayLit elems).withType t).height ≤ exprHeight H b := by
  have hpred := exprHeight_pred_add_one_le H b (by omega)
  rw [Node.height_withType, Node.height_ofArgs]
  exact Nat.le_trans (Nat.succ_le_succ (Node.heightList_le_iff.2 h)) hpred

theorem height_arrayValue_le (h : ∀ x ∈ elems, x.height ≤ (Goal.value t).heightBound H (b - 1)) :
    ((Node.ofArgs .arrayLit elems).withType (.array t)).height ≤
      (Goal.value (.array t)).heightBound H b := by
  rw [Node.height_withType, Node.height_ofArgs, Goal.heightBound, Ty.nesting]
  exact succ_le_max_exprHeight (Node.heightList_le_iff.2 h)

theorem height_tupleValue_le (hlen : ts.length = elems.length)
    (h : ∀ t x, (t, x) ∈ ts.zip elems → x.height ≤ (Goal.value t).heightBound H (b - 1)) :
    ((Node.ofArgs .tupleLit elems).withType (.tuple ts)).height ≤
      (Goal.value (.tuple ts)).heightBound H b := by
  rw [Node.height_withType, Node.height_ofArgs, Goal.heightBound, Ty.nesting]
  apply succ_le_max_exprHeight
  apply Node.heightList_le_of_zip (Nat.le_of_eq hlen.symm)
  intro t x hx
  have hx' : x.height ≤ max (exprHeight H (b - 1)) (t.nesting + 1) := h t x hx
  have ht := Ty.nestingList_le_iff.1 (Nat.le_refl _) t (List.of_mem_zip hx).1
  omega

/-- A value of a type whose nesting is no less is bounded as well. -/
theorem Goal.heightBound_value_mono (hle : t.nesting ≤ u.nesting) :
    (Goal.value t).heightBound H b ≤ (Goal.value u).heightBound H b := by
  simp only [Goal.heightBound]
  omega

theorem height_strictArgument_le {p : Param} (h : n.height ≤ (Goal.value p.type).heightBound H b) :
    (Node.cast p.type n.asOperand).height ≤ (Goal.argument p).heightBound H b := by
  have hn : n.height ≤ max (exprHeight H b) (p.type.nesting + 1) := h
  have hn' := n.height_asOperand_le
  rw [Goal.heightBound, Node.height_cast]
  omega

end Values

/-- An expression that is derived for a goal within a budget is no higher than the bound of the
goal. -/
theorem Derives.height_le {b : Nat} {g : Goal} {n : Node} (h : Derives env b g n) :
    n.height ≤ g.heightBound env.symbols.paramNesting b := by
  generalize hH : env.symbols.paramNesting = H
  have hleaf : ∀ b, 1 ≤ exprHeight H b := one_le_exprHeight H
  induction h with
  | literal _ => exact (Node.height_lit _).trans_le (hleaf _)
  | bare _ _ ih => exact Nat.le_succ_of_le ih
  | wrapped _ _ ih => exact (Node.height_parens _).trans_le (Nat.succ_le_succ ih)
  | compare _ _ _ ihx ihy | logical _ _ _ ihx ihy | intBits _ _ ihx ihy | floatArith _ _ ihx ihy
  | spaceship _ _ ihx ihy | concat _ _ ihx ihy =>
      exact Goal.le_heightBound_form (by decide) (Node.height_operation_le ihx ihy)
  | logicalWord _ _ _ ihx ihy =>
      exact Goal.le_heightBound_form (by decide) (Node.height_parens_operation_le ihx ihy)
  | intArith _ _ ihx ihy =>
      exact Goal.le_heightBound_form (by decide) (Node.height_castTo_operation_le ihx ihy)
  | intExp _ _ ihx ihy => exact Goal.le_heightBound_form (by decide) (Node.height_power_le ihx ihy)
  | shift _ _ ihx ihy => exact Goal.le_heightBound_form (by decide) (Node.height_shift_le ihx ihy)
  | not _ ihx | intUnary _ ihx =>
      exact Goal.le_heightBound_form (by decide) (Node.height_unary_asOperand_le ihx)
  | cast _ ihx => exact Goal.le_heightBound_form (by decide) (Node.height_castTo_asOperand_le ihx)
  | ternary hx' hy' _ _ _ ihc ihx ihy =>
      exact Goal.le_heightBound_form (by decide) (Node.height_ternary_le hx' hy' ihc ihx ihy)
  | floatsEqual _ _ _ ihx ihy =>
      exact Goal.le_heightBound_form (by decide) (Node.height_helper_le _ ihx ihy)
  | floatsDiffer _ _ _ ihx ihy =>
      exact Goal.le_heightBound_form (by decide) (Node.height_unary_helper_le _ ihx ihy)
  | safeDiv _ _ ihx ihy | safeMod _ _ ihx ihy =>
      exact Goal.le_heightBound_form (by decide) (Node.height_castTo_helper_le _ ihx ihy)
  | @var b | @formLiteral b | @tupleElem b =>
      apply Goal.le_heightBound_form (k := 4) (by decide)
      simp
  | @field b _ _ hread =>
      exact Goal.le_heightBound_form (k := 3) (by decide)
        (Nat.le_trans hread.height_le (Nat.le_add_left 3 _))
  | stringLast hread =>
      exact Goal.le_heightBound_form (by decide) (hread.height_index_le (hleaf _))
  | interpolated hparts =>
      exact Goal.le_heightBound_form (k := 2) (by decide)
        (Nat.le_trans (height_interpolated_le hparts) (Nat.le_add_left 2 _))
  | stringIndex hread _ ih =>
      exact Goal.le_heightBound_form (by decide) (hread.height_index_le ih)
  | nullCoalesce hread _ ih =>
      exact Goal.le_heightBound_form (by decide) (hread.height_nullCoalesce_le ih)
  | formCall hf _ _ ih => exact height_call_le_form (hH ▸ SymbolTable.funcNesting_le hf) ih
  | mixedScalar _ ih => exact ih
  | mixedArray hb _ ih => exact height_mixedArray_le hb ih
  | scalarValue _ ih | mixedValue _ ih => exact Nat.le_trans ih (Nat.le_max_left _ _)
  | reused _ hread => exact hread.height_eq.trans_le Goal.one_le_heightBound_value
  | enumValue _ => exact (Node.height_lit _).trans_le Goal.one_le_heightBound_value
  | newValue _ | nullValue _ => exact Goal.one_le_heightBound_value
  | arrayValue _ ih => exact height_arrayValue_le ih
  | tupleValue hlen _ ih => exact height_tupleValue_le hlen ih
  | innerValue _ ih => exact ih
  | leftValue _ ih => exact Nat.le_trans ih (Goal.heightBound_value_mono (Nat.le_max_left _ _))
  | rightValue _ ih => exact Nat.le_trans ih (Goal.heightBound_value_mono (Nat.le_max_right _ _))
  | plainArgument _ _ ih => exact Nat.le_add_right_of_le ih
  | strictArgument _ _ ih => exact height_strictArgument_le ih
  | @functionCall b f args _ _ hlen _ ih =>
      have hargs := height_arguments_le hlen ih
      rw [Goal.heightBound, Node.height_withType, Node.height_call]
      omega
  | @methodCall b f c object args _ hobject _ hlen _ ih =>
      have hargs := height_arguments_le hlen ih
      have hobject := hobject.height_le
      rw [Goal.heightBound, Node.height_withType, Node.methodCall, Node.height_mk,
        Node.heightList_cons]
      omega

/-! ## Heights of generated expressions -/

namespace Generator

variable {ρ : Type} [WordSource ρ]

/-- An expression of a type is always drawn, and it is no higher than budget and types allow,
whatever is in scope and whatever the source yields: five levels for each unit of budget, as many as
the type is nested, and as many as the most nested parameter type of the table is. Beyond the
greatest depth there is no budget left, and the type alone decides. -/
theorem value_height_le (g : Generator ρ) {t : Ty} (hreach : g.symbols.Reachable)
    (hfrozen : g.symbols.isFrozen = true)
    (hparams : ∀ f ∈ g.symbols.funcs, ∀ p ∈ f.params, p.type.HasValues)
    (hchances : ∀ s ∈ g.config.chances, s.2.isProbability = true) (ht : t.HasValues) :
    ∃ n g', Build.value t g = .ok (n, g') ∧
      n.height ≤ 5 * (g.config.maxExprDepth + 1 - g.exprDepth) + t.nesting +
        g.symbols.paramNesting + 1 ∧
      (g.config.maxExprDepth < g.exprDepth → n.height ≤ t.nesting + 1) := by
  have hs : g.env.Drawable Ty.HasValues fun _ => False := by
    refine ⟨fun s hs hbad => ?_, hreach.consistent, hfrozen, hparams⟩
    rw [hchances s hs] at hbad
    cases hbad
  have hruns : Runs (fun _ => False) (Build.value t) g
      fun n _ => n.height ≤ (Goal.value t).heightBound g.symbols.paramNesting g.budget :=
    Build.Draws.from_state (Build.value_draws hs.valued ht.valuedIn) fun _ _ hn => hn.height_le
  cases hrun : Build.value t g with
  | error f => exact (hruns.of_error hrun).elim
  | ok r =>
      have hle := hruns.of_ok (a := r.1) (t := r.2) hrun
      refine ⟨r.1, r.2, rfl, ?_, fun hdeep => ?_⟩
      · have hexpr := exprHeight_le g.symbols.paramNesting g.budget
        simp only [Goal.heightBound, budget] at hle hexpr
        omega
      · have hbudget : g.budget = 0 := Nat.sub_eq_zero_of_le hdeep
        rw [hbudget] at hle
        simp only [Goal.heightBound, exprHeight] at hle
        omega

/-- An array of integers, beyond the greatest depth, beside a function that takes an array of
arrays. -/
theorem value_height_le_rows :
    ∃ g : Generator Scripted.Stream,
      g.symbols.funcs = [.function "rows" [.required "x" (.array (.array .int))] .int] ∧
      g.config.maxExprDepth < g.exprDepth ∧ ∃ n g',
        Build.value (.array .int) g = .ok (n, g') ∧ n.height ≤ 4 ∧ n.height ≤ 2 := by
  let rows : FuncType := .function "rows" [.required "x" (.array (.array .int))] .int
  let table : SymbolTable :=
    ⟨[], [rows], true, TypeIndex.empty.freeze, (TypeIndex.empty.insert .int 0).freeze⟩
  have hreach : table.Reachable :=
    .freeze (@SymbolTable.Reachable.addFunc .empty _ rows 0 .empty rfl) rfl
  have hparams : ∀ f ∈ table.funcs, ∀ p ∈ f.params, p.type.HasValues := by
    intro f hf p hp
    obtain rfl := List.mem_singleton.1 hf
    obtain rfl := List.mem_singleton.1 hp
    exact .array (.array (.scalar (by decide)))
  let g : Generator Scripted.Stream :=
    { start ⟨[], 0⟩ .standard 0 with symbols := table, exprDepth := 9 }
  obtain ⟨n, g', hrun, hle, hdeep⟩ := value_height_le g hreach rfl hparams (by decide)
    (.array (.scalar (by decide)) : Ty.HasValues (.array .int))
  have hbeyond : g.config.maxExprDepth < g.exprDepth := by decide
  have hbound : 5 * (g.config.maxExprDepth + 1 - g.exprDepth) + (Ty.array .int).nesting +
      g.symbols.paramNesting + 1 = 4 := by decide
  exact ⟨g, rfl, hbeyond, n, g', hrun, hbound ▸ hle, hdeep hbeyond⟩

end Generator

end TypedPhp
