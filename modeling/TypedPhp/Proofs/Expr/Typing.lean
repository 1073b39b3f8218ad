import TypedPhp.Catalog
import TypedPhp.Proofs.Expr.Choose
import TypedPhp.Proofs.Runs.Building
import TypedPhp.Random.Scripted

set_option autoImplicit false

/-!
# Type soundness of expressions

`Fits vars t n` is a typing judgment on finished trees: it looks through parentheses and knows
nothing of how a tree was built. Every expression that the grammar derives for a type fits it
(`Derives.fits`), so every expression that the generator builds for a type fits it
(`Generator.value_fits`).
-/

namespace TypedPhp

namespace Op

/-- The comparisons that give a truth value. -/
def comparisons : List Op :=
  [equal, identical, notEqual, notIdentical, less, lessOrEqual, greater, greaterOrEqual]

/-- The operators on truth values, as symbols and as words. -/
def connectives : List Op := [and, or, andWord, orWord, xorWord]

/-- The arithmetic operators that neither fail nor leave the kind of a float. -/
def arithmetic : List Op := [add, sub, mul]

/-- The operators on the bits of two integers. -/
def bitwise : List Op := [bitAnd, bitOr, bitXor]

/-- The operators that shift the bits of an integer. -/
def shifts : List Op := [shiftLeft, shiftRight]

/-- The operators on one integer. -/
def signs : List Op := [negation, bitNot, unaryPlus]

end Op

/-! ## The judgment -/

/-- An expression fits a type, where the given variables are in scope. -/
inductive Fits (vars : List ScopeVar) : Ty → Node → Prop where
  | parens {t : Ty} {x : Node} {type : Option Ty} : Fits vars t x →
      Fits vars t (.mk .parens [x] none type)
  -- Scalars of any kind.
  | literal (l : Literal) : Fits vars (.scalar l.kind) (.lit l)
  | scalarVar {k : Scalar} {v : ScopeVar} : v ∈ vars → v.type = .scalar k →
      Fits vars (.scalar k) (Env.varNode v)
  | enumVar {e : EnumType} {v : ScopeVar} : v ∈ vars → v.type = .enum e →
      Fits vars (.scalar e.kind) (Env.varNode v)
  | field {k : Scalar} (object : Node) (name : String) :
      Fits vars (.scalar k) ((Node.prop object name).withType (.scalar k))
  | tupleElem {k : Scalar} {v : ScopeVar} {elems : List Ty} {i : Nat} : v ∈ vars →
      v.type = .tuple elems → elems[i]? = some (.scalar k) →
      Fits vars (.scalar k)
        ((Node.index (Env.varNode v) (.intLit (Int64.ofNat i))).withType (.scalar k))
  | call {k : Scalar} (callee : String) (args : List Node) :
      Fits vars (.scalar k) ((Node.call callee args).withType (.scalar k))
  | methodCall {k : Scalar} (object : Node) (method : String) (args : List Node) :
      Fits vars (.scalar k) ((Node.methodCall object method args).withType (.scalar k))
  | cast {k : Scalar} {j : Primitive} {x : Node} : Fits vars (.scalar j.scalar) x →
      Fits vars (.scalar k) (.cast (.scalar k) x)
  | ternary {k : Scalar} {cond x y : Node} : Fits vars .bool cond → Fits vars (.scalar k) x →
      Fits vars (.scalar k) y → Fits vars (.scalar k) (.ternary cond x y)
  | nullCoalesce {k : Scalar} {v : ScopeVar} {y : Node} : v ∈ vars →
      v.type = .nullable (.scalar k) → Fits vars (.scalar k) y →
      Fits vars (.scalar k) (.binary .nullCoalesce (Env.varNode v) y)
  -- Truth values.
  | compare {op : Op} {k : Primitive} {x y : Node} : op ∈ Op.comparisons →
      Fits vars (.scalar k.scalar) x → Fits vars (.scalar k.scalar) y →
      Fits vars .bool (.binary op x y)
  | floatsEqual {x y : Node} : Fits vars .float x → Fits vars .float y →
      Fits vars .bool (.call "fuzz_float_eq" [x, y])
  | connect {op : Op} {x y : Node} : op ∈ Op.connectives → Fits vars .bool x →
      Fits vars .bool y → Fits vars .bool (.binary op x y)
  | not {x : Node} : Fits vars .bool x → Fits vars .bool (.unary .not x)
  -- Integers. Sums, products and powers may leave the integers, so they are cast back.
  | arith {op : Op} {x y : Node} : op = .exp ∨ op ∈ Op.arithmetic → Fits vars .int x →
      Fits vars .int y → Fits vars .int (.cast .int (Node.binary op x y).parens)
  | safeMod {x y : Node} : Fits vars .int x → Fits vars .int y →
      Fits vars .int (.cast .int (.call "fuzz_safe_mod" [x, y]))
  | safeDiv {k : Scalar} {x y : Node} : k = .int ∨ k = .float → Fits vars (.scalar k) x →
      Fits vars (.scalar k) y →
      Fits vars (.scalar k) (.cast (.scalar k) (.call "fuzz_safe_div" [x, y]))
  | bits {op : Op} {x y : Node} : op ∈ Op.bitwise ∨ op ∈ Op.shifts → Fits vars .int x →
      Fits vars .int y → Fits vars .int (.binary op x y)
  | sign {op : Op} {x : Node} : op ∈ Op.signs → Fits vars .int x →
      Fits vars .int (.unary op x)
  | spaceship {k : Primitive} {x y : Node} : Fits vars (.scalar k.scalar) x →
      Fits vars (.scalar k.scalar) y → Fits vars .int (.binary .spaceship x y)
  -- Floats.
  | floatArith {op : Op} {x y : Node} : op ∈ Op.arithmetic → Fits vars .float x →
      Fits vars .float y → Fits vars .float (.binary op x y)
  -- Strings. The parts of an interpolated string are literals and visible scalar variables.
  | concat {x y : Node} : Fits vars .string x → Fits vars .string y →
      Fits vars .string (.binary .concat x y)
  | interpolated {parts : List Node} :
      (∀ p ∈ parts, (∃ bytes, p = .stringLit bytes) ∨
        ∃ v ∈ vars, ∃ k : Primitive, v.type = .scalar k.scalar ∧ p = Env.varNode v) →
      Fits vars .string ((Node.ofArgs .interpolated parts).withType .string)
  | stringIndex {v : ScopeVar} {key : Node} : v ∈ vars → v.type = .string →
      Fits vars .int key → Fits vars .string ((Node.index (Env.varNode v) key).withType .string)
  -- The other types.
  | mixedScalar {k : Primitive} {x : Node} : Fits vars (.scalar k.scalar) x → Fits vars .mixed x
  | mixedArray {k : Primitive} {x : Node} : Fits vars (.array (.scalar k.scalar)) x →
      Fits vars .mixed x
  | sameVar {t : Ty} {v : ScopeVar} : t.scalarKind? = none → v ∈ vars →
      v.type.identical t = true → Fits vars t (Env.varNode v)
  | enumLiteral {e : EnumType} {l : Literal} : l ∈ e.values → Fits vars (.enum e) (.lit l)
  | arrayLit {elem : Ty} {elems : List Node} : (∀ x ∈ elems, Fits vars elem x) →
      Fits vars (.array elem) ((Node.ofArgs .arrayLit elems).withType (.array elem))
  | tupleLit {elems : List Ty} {args : List Node} : elems.length = args.length →
      (∀ t x, (t, x) ∈ elems.zip args → Fits vars t x) →
      Fits vars (.tuple elems) ((Node.ofArgs .tupleLit args).withType (.tuple elems))
  | newObject (c : ClassRef) :
      Fits vars (.object c) ((Node.newObject c.name).withType (.object c))
  | null (t : Ty) : Fits vars (.nullable t) (Node.null.withType (.nullable t))
  | nullable {t : Ty} {x : Node} : Fits vars t x → Fits vars (.nullable t) x
  | left {t u : Ty} {x : Node} : Fits vars t x → Fits vars (.union t u) x
  | right {t u : Ty} {x : Node} : Fits vars u x → Fits vars (.union t u) x

theorem Node.asOperand_eq (n : Node) : n.asOperand = n ∨ n.asOperand = n.parens :=
  ite_eq_or_eq _ _ _

theorem Node.asPowerOperand_eq (n : Node) :
    n.asPowerOperand = n ∨ n.asPowerOperand = n.parens :=
  ite_eq_or_eq _ _ _

/-- What holds of a node bare and in parentheses holds of it in either form. -/
theorem Node.of_eq_or_parens {P : Node → Prop} {n x : Node} (h : x = n ∨ x = n.parens) (hn : P n)
    (hparens : P n.parens) : P x := by
  rcases h with rfl | rfl
  · exact hn
  · exact hparens

namespace Fits

variable {vars vars' : List ScopeVar} {t : Ty} {n : Node}

theorem asOperand (h : Fits vars t n) : Fits vars t n.asOperand :=
  Node.of_eq_or_parens n.asOperand_eq h (.parens h)

theorem asPowerOperand (h : Fits vars t n) : Fits vars t n.asPowerOperand :=
  Node.of_eq_or_parens n.asPowerOperand_eq h (.parens h)

/-- An expression fits a type wherever more variables are in scope. -/
theorem mono (hle : ∀ v ∈ vars, v ∈ vars') (h : Fits vars t n) : Fits vars' t n := by
  -- The scope matters only where a variable is read.
  induction h with
  | parens _ ih => exact .parens ih
  | literal l => exact .literal l
  | scalarVar hv hty => exact .scalarVar (hle _ hv) hty
  | enumVar hv hty => exact .enumVar (hle _ hv) hty
  | field object name => exact .field object name
  | tupleElem hv hty hget => exact .tupleElem (hle _ hv) hty hget
  | call callee args => exact .call callee args
  | methodCall object method args => exact .methodCall object method args
  | cast _ ih => exact .cast ih
  | ternary _ _ _ ihc ihx ihy => exact .ternary ihc ihx ihy
  | nullCoalesce hv hty _ ih => exact .nullCoalesce (hle _ hv) hty ih
  | compare hop _ _ ihx ihy => exact .compare hop ihx ihy
  | floatsEqual _ _ ihx ihy => exact .floatsEqual ihx ihy
  | connect hop _ _ ihx ihy => exact .connect hop ihx ihy
  | not _ ih => exact .not ih
  | arith hop _ _ ihx ihy => exact .arith hop ihx ihy
  | safeMod _ _ ihx ihy => exact .safeMod ihx ihy
  | safeDiv hk _ _ ihx ihy => exact .safeDiv hk ihx ihy
  | bits hop _ _ ihx ihy => exact .bits hop ihx ihy
  | sign hop _ ih => exact .sign hop ih
  | spaceship _ _ ihx ihy => exact .spaceship ihx ihy
  | floatArith hop _ _ ihx ihy => exact .floatArith hop ihx ihy
  | concat _ _ ihx ihy => exact .concat ihx ihy
  | interpolated hparts =>
      apply Fits.interpolated
      intro p hp
      rcases hparts p hp with htext | ⟨v, hv, hvar⟩
      · exact Or.inl htext
      · exact Or.inr ⟨v, hle v hv, hvar⟩
  | stringIndex hv hty _ ih => exact .stringIndex (hle _ hv) hty ih
  | mixedScalar _ ih => exact .mixedScalar ih
  | mixedArray _ ih => exact .mixedArray ih
  | sameVar ht hv hty => exact .sameVar ht (hle _ hv) hty
  | enumLiteral hl => exact .enumLiteral hl
  | arrayLit _ ih => exact .arrayLit ih
  | tupleLit hlen _ ih => exact .tupleLit hlen ih
  | newObject c => exact .newObject c
  | null t => exact .null t
  | nullable _ ih => exact .nullable ih
  | left _ ih => exact .left ih
  | right _ ih => exact .right ih

end Fits

/-! ## What the forms of a category are -/

/-- The kinds of values that a form gives with the operators it is used with. -/
def ExprForm.Gives : ExprForm → Primitive → Prop
  | compare op, k => k = .bool ∧ op ∈ Op.comparisons
  | logical op, k => k = .bool ∧ op ∈ Op.connectives
  | not, k => k = .bool
  | var j, k | literal j, k | call j, k | field j, k | tupleElem j, k | nullCoalesce j, k
  | ternary j, k | cast j, k => j = k
  | intArith op, k => k = .int ∧ op ∈ Op.arithmetic
  | intBits op, k => k = .int ∧ op ∈ Op.bitwise
  | shift op, k => k = .int ∧ op ∈ Op.shifts
  | intUnary op, k => k = .int ∧ op ∈ Op.signs
  | spaceship, k | intExp, k | safeMod, k => k = .int
  | safeDiv j, k => j = k ∧ (k = .int ∨ k = .float)
  | floatArith op, k => k = .float ∧ op ∈ Op.arithmetic
  | concat, k | interpolated, k | stringIndex, k => k = .string

instance (f : ExprForm) (k : Primitive) : Decidable (f.Gives k) := by
  cases f <;> unfold ExprForm.Gives <;> infer_instance

/-- Every form that a category offers gives values of the kind of the category. -/
theorem ExprForm.Offered.gives {c : Category} {f : ExprForm} (h : f.Offered c) :
    f.Gives c.kind := by
  obtain ⟨choice, hmem, hf⟩ := h
  -- The tables of the categories are finite: every entry and every fallback is looked at.
  have hall : ∀ choice ∈ formsOf c,
      choice.option.Gives c.kind ∧ ∀ g ∈ choice.fallback, g.Gives c.kind := by
    cases c with
    | cond => decide
    | value k => cases k <;> decide
  obtain ⟨hoption, hfallback⟩ := hall choice hmem
  rcases hf with rfl | hf
  · exact hoption
  · exact hfallback f hf

/-! ## Soundness of the grammar -/

/-- What an expression that is derived for a goal fits. A call fits where its result is scalar. -/
def Goal.Fitting (vars : List ScopeVar) : Goal → Node → Prop
  | .category c, n => Fits vars (.scalar c.kind.scalar) n
  | .form f, n => ∀ k : Primitive, f.Gives k → Fits vars (.scalar k.scalar) n
  | .mixed permitArray, n => ∃ k : Primitive, Fits vars (.scalar k.scalar) n ∨
      (permitArray = true ∧ Fits vars (.array (.scalar k.scalar)) n)
  | .value t, n => Fits vars t n
  | .argument _, _ => True
  | .call f, n => ∀ k, f.result = .scalar k → Fits vars (.scalar k) n

variable {env : Env}

theorem Env.Reads.scalarVar {k : Scalar} {n : Node} (h : env.Reads (.scalar k) n) :
    ∃ v ∈ env.scope.visible, v.type = .scalar k ∧ n = Env.varNode v := by
  obtain ⟨v, hv, hty, rfl⟩ := h
  exact ⟨v, hv, Ty.identical_scalar_iff.1 hty, rfl⟩

/-- A variable of a nullable scalar type. -/
theorem Env.Reads.nullableVar {k : Scalar} {n : Node} (h : env.Reads (.nullable (.scalar k)) n) :
    ∃ v ∈ env.scope.visible, v.type = .nullable (.scalar k) ∧ n = Env.varNode v := by
  obtain ⟨v, hv, hty, rfl⟩ := h
  refine ⟨v, hv, ?_, rfl⟩
  cases hvt : v.type with
  | nullable t =>
      rw [hvt, Ty.identical] at hty
      rw [Ty.identical_scalar_iff.1 hty]
  | _ => simp [hvt, Ty.identical] at hty

/-! What the forms give, where their operands fit. -/

namespace ExprForm.Gives

variable {vars : List ScopeVar} {op : Op} {j k : Primitive} {cond x y x' y' : Node}

theorem compare_fits (h : (compare op).Gives k) (hx : Fits vars (.scalar j.scalar) x)
    (hy : Fits vars (.scalar j.scalar) y) : Fits vars (.scalar k.scalar) (.operation op x y) := by
  obtain ⟨rfl, hop⟩ := h
  exact .compare hop hx.asOperand hy.asOperand

theorem floatsEqual_fits (h : (compare op).Gives k) (hx : Fits vars .float x)
    (hy : Fits vars .float y) : Fits vars (.scalar k.scalar) (.call "fuzz_float_eq" [x, y]) := by
  obtain ⟨rfl, -⟩ := h
  exact .floatsEqual hx hy

theorem floatsDiffer_fits (h : (compare op).Gives k) (hx : Fits vars .float x)
    (hy : Fits vars .float y) :
    Fits vars (.scalar k.scalar) (.unary .not (.call "fuzz_float_eq" [x, y])) := by
  obtain ⟨rfl, -⟩ := h
  exact .not (.floatsEqual hx hy)

theorem logical_fits (h : (logical op).Gives k) (hx : Fits vars .bool x) (hy : Fits vars .bool y) :
    Fits vars (.scalar k.scalar) (.operation op x y) := by
  obtain ⟨rfl, hop⟩ := h
  exact .connect hop hx.asOperand hy.asOperand

theorem ternary_fits (h : (ternary j).Gives k) (hx' : x' = x ∨ x' = x.parens)
    (hy' : y' = y ∨ y' = y.parens) (hcond : Fits vars .bool cond)
    (hx : Fits vars (.scalar j.scalar) x) (hy : Fits vars (.scalar j.scalar) y) :
    Fits vars (.scalar k.scalar) (Node.ternary cond.asOperand x' y').parens := by
  obtain rfl := h
  refine .parens (.ternary hcond.asOperand ?_ ?_)
  · exact Node.of_eq_or_parens hx' hx (.parens hx)
  · exact Node.of_eq_or_parens hy' hy (.parens hy)

theorem intArith_fits (h : (intArith op).Gives k) (hx : Fits vars .int x) (hy : Fits vars .int y) :
    Fits vars (.scalar k.scalar) (.castTo .int (Node.operation op x y).parens) := by
  obtain ⟨rfl, hop⟩ := h
  exact .arith (Or.inr hop) hx.asOperand hy.asOperand

theorem intBits_fits (h : (intBits op).Gives k) (hx : Fits vars .int x) (hy : Fits vars .int y) :
    Fits vars (.scalar k.scalar) (.operation op x y) := by
  obtain ⟨rfl, hop⟩ := h
  exact .bits (Or.inl hop) hx.asOperand hy.asOperand

/-- The distance of a shift is masked to six bits. -/
theorem shift_fits (h : (shift op).Gives k) (hx : Fits vars .int x) (hy : Fits vars .int y) :
    Fits vars (.scalar k.scalar)
      (.binary op x.asOperand (Node.binary .bitAnd y.asOperand (.intLit 63)).parens) := by
  obtain ⟨rfl, hop⟩ := h
  refine .bits (Or.inr hop) hx.asOperand (.parens (.bits (Or.inl ?_) hy.asOperand ?_))
  · decide
  · exact .literal (.int 63)

theorem intUnary_fits (h : (intUnary op).Gives k) (hx : Fits vars .int x) :
    Fits vars (.scalar k.scalar) (.unary op x.asOperand) := by
  obtain ⟨rfl, hop⟩ := h
  exact .sign hop hx.asOperand

theorem safeDiv_fits (h : (safeDiv j).Gives k) (hx : Fits vars (.scalar j.scalar) x)
    (hy : Fits vars (.scalar j.scalar) y) :
    Fits vars (.scalar k.scalar) (.castTo j (.call "fuzz_safe_div" [x, y])) := by
  obtain ⟨rfl, rfl | rfl⟩ := h
  · exact .safeDiv (Or.inl rfl) hx hy
  · exact .safeDiv (Or.inr rfl) hx hy

theorem floatArith_fits (h : (floatArith op).Gives k) (hx : Fits vars .float x)
    (hy : Fits vars .float y) : Fits vars (.scalar k.scalar) (.operation op x y) := by
  obtain ⟨rfl, hop⟩ := h
  exact .floatArith hop hx.asOperand hy.asOperand

end ExprForm.Gives

/-! What is read from the surroundings. -/

section Reads

variable {k : Primitive} {n y key : Node} {parts : List Node}

theorem Literal.Drawn.fits {vars : List ScopeVar} {l : Literal} {k : Scalar} (h : l.Drawn k) :
    Fits vars (.scalar k) (.lit l) := by
  rw [← h.kind]
  exact .literal l

theorem Primitive.HeldBy.fits {vars : List ScopeVar} {v : ScopeVar} (hv : v ∈ vars)
    (h : k.HeldBy v) : Fits vars (.scalar k.scalar) (Env.varNode v) := by
  rcases h with hty | ⟨e, hty, hkind⟩
  · exact .scalarVar hv hty
  · rw [← hkind]
    exact .enumVar hv hty

theorem ReadsField.fits {vars : List ScopeVar} {k : Scalar} (h : ReadsField env (.scalar k) n) :
    Fits vars (.scalar k) n := by
  obtain ⟨_, _⟩ := h
  exact .field _ _

theorem Env.Reads.nullCoalesce_fits (h : env.Reads (.nullable (.scalar k.scalar)) n)
    (hy : Fits env.scope.visible (.scalar k.scalar) y) :
    Fits env.scope.visible (.scalar k.scalar)
      ((Node.binary .nullCoalesce n y.asOperand).parens.withType (.scalar k.scalar)) := by
  obtain ⟨v, hv, hty, rfl⟩ := h.nullableVar
  exact .parens (.nullCoalesce hv hty hy.asOperand)

theorem Env.Reads.stringIndex_fits (h : env.Reads .string n)
    (hkey : Fits env.scope.visible .int key) :
    Fits env.scope.visible .string ((Node.index n key).withType .string) := by
  obtain ⟨v, hv, hty, rfl⟩ := h.scalarVar
  exact .stringIndex hv hty hkey

theorem Part.interpolated_fits (h : ∀ p ∈ parts, Part env p) :
    Fits env.scope.visible .string ((Node.ofArgs .interpolated parts).withType .string) := by
  refine .interpolated fun p hp => ?_
  cases h p hp with
  | text bytes => exact Or.inl ⟨bytes, rfl⟩
  | @«variable» k _ hread =>
      obtain ⟨v, hv, hty, rfl⟩ := hread.scalarVar
      exact Or.inr ⟨v, hv, k, hty, rfl⟩

end Reads

/-- Every expression that is derived for a type fits it. -/
theorem Derives.fits {b : Nat} {g : Goal} {n : Node} (h : Derives env b g n) :
    g.Fitting env.scope.visible n := by
  -- A form may be shared by several kinds, so its hypothesis holds for every kind that it gives.
  induction h with
  | literal hl => exact hl.fits
  | bare hf _ ih => exact ih _ hf.gives
  | wrapped hf _ ih => exact .parens (ih _ hf.gives)
  | compare _ _ _ ihx ihy => exact fun _ h => h.compare_fits ihx ihy
  | floatsEqual _ _ _ ihx ihy => exact fun _ h => h.floatsEqual_fits ihx ihy
  | floatsDiffer _ _ _ ihx ihy => exact fun _ h => h.floatsDiffer_fits ihx ihy
  | spaceship _ _ ihx ihy => exact forall_eq.2 (.spaceship ihx.asOperand ihy.asOperand)
  | logical _ _ _ ihx ihy => exact fun _ h => h.logical_fits ihx ihy
  | logicalWord _ _ _ ihx ihy => exact fun _ h => .parens (h.logical_fits ihx ihy)
  | not _ ih => exact forall_eq.2 (.not ih.asOperand)
  | var hv hheld => exact forall_eq'.2 (hheld.fits hv)
  | formLiteral hl => exact forall_eq'.2 hl.fits
  | formCall _ hresult _ ih => exact forall_eq'.2 (ih _ hresult)
  | field hread => exact forall_eq'.2 hread.fits
  | tupleElem hv hty hget => exact forall_eq'.2 (.tupleElem hv hty hget)
  | nullCoalesce hread _ ih => exact forall_eq'.2 (hread.nullCoalesce_fits ih)
  | ternary hx hy _ _ _ ihc ihx ihy => exact fun _ h => h.ternary_fits hx hy ihc ihx ihy
  | cast _ ih =>
      rintro k rfl
      obtain ⟨j, hfit | ⟨hpermit, _⟩⟩ := ih
      · exact .cast hfit.asOperand
      · cases hpermit
  | intArith _ _ ihx ihy => exact fun _ h => h.intArith_fits ihx ihy
  | intBits _ _ ihx ihy => exact fun _ h => h.intBits_fits ihx ihy
  | shift _ _ ihx ihy => exact fun _ h => h.shift_fits ihx ihy
  | intUnary _ ih => exact fun _ h => h.intUnary_fits ih
  | intExp _ _ ihx ihy =>
      exact forall_eq.2 (.arith (Or.inl rfl) ihx.asPowerOperand ihy.asPowerOperand)
  | safeDiv _ _ ihx ihy => exact fun _ h => h.safeDiv_fits ihx ihy
  | safeMod _ _ ihx ihy => exact forall_eq.2 (.safeMod ihx ihy)
  | floatArith _ _ ihx ihy => exact fun _ h => h.floatArith_fits ihx ihy
  | concat _ _ ihx ihy => exact forall_eq.2 (.concat ihx.asOperand ihy.asOperand)
  | interpolated hparts => exact forall_eq.2 (Part.interpolated_fits hparts)
  | stringIndex hread _ ih => exact forall_eq.2 (hread.stringIndex_fits ih)
  | stringLast hread => exact forall_eq.2 (hread.stringIndex_fits (.literal (.int (-1))))
  | @mixedScalar _ _ k _ _ ih => exact ⟨k, Or.inl ih⟩
  | @mixedArray _ k _ _ _ ih => exact ⟨k, Or.inr ⟨rfl, .arrayLit ih⟩⟩
  | mixedValue _ ih =>
      obtain ⟨k, hfit | ⟨_, hfit⟩⟩ := ih
      · exact .mixedScalar hfit
      · exact .mixedArray hfit
  | reused ht hread =>
      obtain ⟨v, hv, hty, rfl⟩ := hread
      exact .sameVar ht hv hty
  | scalarValue _ ih => exact ih
  | enumValue hl => exact .enumLiteral hl
  | arrayValue _ ih => exact .arrayLit ih
  | tupleValue hlen _ ih => exact .tupleLit hlen ih
  | newValue c => exact .newObject c
  | nullValue t => exact .null t
  | innerValue _ ih => exact .nullable ih
  | leftValue _ ih => exact .left ih
  | rightValue _ ih => exact .right ih
  | plainArgument _ _ _ | strictArgument _ _ _ => trivial
  | functionCall _ _ _ _ _ =>
      intro k hk
      rw [hk]
      exact .call _ _
  | methodCall _ _ _ _ _ _ =>
      intro k hk
      rw [hk]
      exact .methodCall _ _ _

/-! ## Soundness of the generator -/

namespace Generator

variable {ρ : Type} [WordSource ρ]

/-- The generator builds only expressions that fit the type asked for, whatever is in scope,
however deep the expression is nested and whatever the source yields; and it does build one if the
chances of the configuration are probabilities. -/
theorem value_fits (g : Generator ρ) {t : Ty} (hreach : g.symbols.Reachable)
    (hfrozen : g.symbols.isFrozen = true)
    (hparams : ∀ f ∈ g.symbols.funcs, ∀ p ∈ f.params, p.type.HasValues) (ht : t.HasValues) :
    (∀ n g', Build.value t g = .ok (n, g') → Fits g.scope.visible t n) ∧
    ((∀ s ∈ g.config.chances, s.2.isProbability = true) →
      ∃ n g', Build.value t g = .ok (n, g')) := by
  -- One run is followed for both parts: with every fault admitted it says what is built, with
  -- none admitted that something is.
  have hruns : ∀ E : Fault → Prop, g.config.ChancesIn E →
      Runs E (Build.value t) g fun n _ => Fits g.scope.visible t n := by
    intro E hE
    have hs : g.env.Drawable Ty.HasValues E := ⟨hE, hreach.consistent, hfrozen, hparams⟩
    exact Build.Draws.from_state (Build.value_draws hs.valued ht.valuedIn) fun n _ hn => hn.fits
  constructor
  · intro n g' hrun
    have hall := hruns (fun _ => True) fun _ _ _ => trivial
    exact hall.of_ok hrun
  · intro hchances
    have hnone := hruns (fun _ => False) fun s hs hbad => by
      rw [hchances s hs] at hbad
      cases hbad
    cases hrun : Build.value t g with
    | error f => exact (hnone.of_error hrun).elim
    | ok r => exact ⟨r.1, r.2, rfl⟩

/-- An array of integers, where a string is in scope and its length can be taken. -/
theorem value_fits_strlen :
    ∃ g : Generator Scripted.Stream, g.symbols.funcs = [Catalog.ofString "strlen" .int] ∧
      g.scope.visible = [⟨"v0", .string⟩] ∧ ∃ n g',
        Build.value (.array .int) g = .ok (n, g') ∧ Fits g.scope.visible (.array .int) n := by
  let strlen : FuncType := Catalog.ofString "strlen" .int
  let table : SymbolTable :=
    ⟨[], [strlen], true, TypeIndex.empty.freeze, (TypeIndex.empty.insert .int 0).freeze⟩
  have hreach : table.Reachable :=
    .freeze (@SymbolTable.Reachable.addFunc .empty _ strlen 0 .empty rfl) rfl
  have hparams : ∀ f ∈ table.funcs, ∀ p ∈ f.params, p.type.HasValues := by
    intro f hf p hp
    obtain rfl := List.mem_singleton.1 hf
    obtain rfl := List.mem_singleton.1 hp
    exact .scalar (by decide)
  let g : Generator Scripted.Stream :=
    { start ⟨[], 0⟩ .standard 0 with symbols := table, scope := ⟨[⟨"v0", .string⟩], [1]⟩ }
  obtain ⟨hfits, hreturns⟩ :=
    value_fits g hreach rfl hparams (.array (.scalar (by decide)) : Ty.HasValues (.array .int))
  obtain ⟨n, g', hrun⟩ := hreturns (by decide)
  exact ⟨g, rfl, rfl, n, g', hrun, hfits n g' hrun⟩

end Generator

end TypedPhp
