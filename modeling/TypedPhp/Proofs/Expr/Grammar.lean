import TypedPhp.Generate.Expr
import TypedPhp.Proofs.Ty.Classes

set_option autoImplicit false

/-!
# Grammar of generated expressions

`Derives env budget goal n` says that `n` is an expression that the generator can build for a goal
in given surroundings, with one rule for every way in which it builds one. The rules hold the
choices that a run makes by chance: which form, which variable, which field or function. That every
draw follows the rules is proved beside the draws; what holds of all generated expressions is then
proved by induction on the rules.
-/

namespace TypedPhp

/-- What an expression is built for. -/
inductive Goal where
  | category (c : Category)
  | form (f : ExprForm)
  /-- A scalar of any kind, or an array of scalars where that is permitted. -/
  | mixed (permitArray : Bool)
  | value (t : Ty)
  | argument (p : Param)
  | call (f : FuncType)

namespace ExprForm

/-- A form that a category offers, as an option or as a fallback. -/
def Offered (c : Category) (f : ExprForm) : Prop :=
  ∃ choice ∈ formsOf c, choice.option = f ∨ choice.fallback = some f

instance (c : Category) (f : ExprForm) : Decidable (f.Offered c) :=
  inferInstanceAs
    (Decidable (∃ choice ∈ formsOf c, choice.option = f ∨ choice.fallback = some f))

end ExprForm

namespace Primitive

/-- The variable holds values of the kind: it is of that scalar type, or of an enum over it. -/
def HeldBy (k : Primitive) (v : ScopeVar) : Prop :=
  v.type = .scalar k.scalar ∨ ∃ e : EnumType, v.type = .enum e ∧ e.kind = k.scalar

end Primitive

/-! ## Leaves -/

variable (env : Env)

/-- A visible variable of exactly a type. -/
def Env.Reads (t : Ty) (n : Node) : Prop :=
  ∃ v ∈ env.scope.visible, v.type.identical t = true ∧ n = Env.varNode v

/-- An object of a class: the current one inside the class, else a variable or a new object. -/
inductive Receives (c : ClassRef) : Node → Prop where
  | this : env.isCurrent c = true → Receives c (.var "this" (.object c))
  | variable {n : Node} : env.isCurrent c = false → env.Reads (.object c) n → Receives c n
  | fresh : env.isCurrent c = false →
      Receives c (.parens ((Node.newObject c.name).withType (.object c)))

/-- A field of a class of the table, of exactly a type, that can be used here. -/
structure Accessible (t : Ty) (c : ClassRef) (f : Field) : Prop where
  known : ∃ cls, env.symbols.classes[c.id]? = some cls ∧ cls.name = c.name ∧ f ∈ cls.fields
  type : f.type.identical t = true
  usable : f.visibility = .publicMember ∨ env.isCurrent c = true

/-- A read of an accessible field. -/
inductive ReadsField (t : Ty) : Node → Prop where
  | of {c : ClassRef} {f : Field} {object : Node} :
      Accessible env t c f → Receives env c object →
      ReadsField t ((Node.prop object f.name).withType t)

/-- A part of an interpolated string: a scalar variable or literal text. -/
inductive Part : Node → Prop where
  | variable {k : Primitive} {n : Node} : env.Reads (.scalar k.scalar) n → Part n
  | text (bytes : List UInt8) : Part (.stringLit bytes)

/-! ## Expressions -/

/-- The comparisons that are not made on floats directly. -/
def Op.IsEquality (op : Op) : Prop :=
  op = .equal ∨ op = .identical ∨ op = .notEqual ∨ op = .notIdentical

/-- The logical operators that are spelled as words. -/
def Op.IsWord (op : Op) : Prop := op = .andWord ∨ op = .orWord ∨ op = .xorWord

/-- The expressions that the generator can build for a goal within a budget. -/
inductive Derives : Nat → Goal → Node → Prop where
  -- A category: without budget a literal, otherwise one of its forms, bare or in parentheses.
  | literal {b : Nat} {c : Category} {l : Literal} : l.Drawn c.kind.scalar →
      Derives b (.category c) (.lit l)
  | bare {b : Nat} {c : Category} {f : ExprForm} {n : Node} : f.Offered c →
      Derives b (.form f) n → Derives (b + 1) (.category c) n
  | wrapped {b : Nat} {c : Category} {f : ExprForm} {n : Node} : f.Offered c →
      Derives b (.form f) n → Derives (b + 1) (.category c) n.parens
  -- Comparisons and logic.
  | compare {b : Nat} {k : Primitive} {op : Op} {x y : Node} : ¬ (k = .float ∧ op.IsEquality) →
      Derives b (.category (.value k)) x → Derives b (.category (.value k)) y →
      Derives b (.form (.compare op)) (.operation op x y)
  | floatsEqual {b : Nat} {op : Op} {x y : Node} : op = .equal ∨ op = .identical →
      Derives b (.category (.value .float)) x → Derives b (.category (.value .float)) y →
      Derives b (.form (.compare op)) (.call "fuzz_float_eq" [x, y])
  | floatsDiffer {b : Nat} {op : Op} {x y : Node} : op = .notEqual ∨ op = .notIdentical →
      Derives b (.category (.value .float)) x → Derives b (.category (.value .float)) y →
      Derives b (.form (.compare op)) (.unary .not (.call "fuzz_float_eq" [x, y]))
  | spaceship {b : Nat} {k : Primitive} {x y : Node} :
      Derives b (.category (.value k)) x → Derives b (.category (.value k)) y →
      Derives b (.form .spaceship) (.operation .spaceship x y)
  | logical {b : Nat} {op : Op} {x y : Node} : ¬ op.IsWord →
      Derives b (.category (.value .bool)) x → Derives b (.category (.value .bool)) y →
      Derives b (.form (.logical op)) (.operation op x y)
  | logicalWord {b : Nat} {op : Op} {x y : Node} : op.IsWord →
      Derives b (.category (.value .bool)) x → Derives b (.category (.value .bool)) y →
      Derives b (.form (.logical op)) (Node.operation op x y).parens
  | not {b : Nat} {x : Node} : Derives b (.category .cond) x →
      Derives b (.form .not) (.unary .not x.asOperand)
  -- What is read from the surroundings.
  | var {b : Nat} {k : Primitive} {v : ScopeVar} : v ∈ env.scope.visible → k.HeldBy v →
      Derives b (.form (.var k)) (Env.varNode v)
  | formLiteral {b : Nat} {k : Primitive} {l : Literal} : l.Drawn k.scalar →
      Derives b (.form (.literal k)) (.lit l)
  | formCall {b : Nat} {k : Primitive} {f : FuncType} {n : Node} : f ∈ env.symbols.funcs →
      f.result = .scalar k.scalar → Derives b (.call f) n → Derives b (.form (.call k)) n
  | field {b : Nat} {k : Primitive} {n : Node} : ReadsField env (.scalar k.scalar) n →
      Derives b (.form (.field k)) n
  | tupleElem {b : Nat} {k : Primitive} {v : ScopeVar} {elems : List Ty} {i : Nat} :
      v ∈ env.scope.visible → v.type = .tuple elems → elems[i]? = some (.scalar k.scalar) →
      Derives b (.form (.tupleElem k))
        ((Node.index (Env.varNode v) (.intLit (Int64.ofNat i))).withType (.scalar k.scalar))
  | nullCoalesce {b : Nat} {k : Primitive} {s y : Node} :
      env.Reads (.nullable (.scalar k.scalar)) s → Derives b (.category (.value k)) y →
      Derives b (.form (.nullCoalesce k))
        ((Node.binary .nullCoalesce s y.asOperand).parens.withType (.scalar k.scalar))
  -- Operations.
  | ternary {b : Nat} {k : Primitive} {cond x y x' y' : Node} : x' = x ∨ x' = x.parens →
      y' = y ∨ y' = y.parens → Derives b (.category .cond) cond →
      Derives b (.category (.value k)) x → Derives b (.category (.value k)) y →
      Derives b (.form (.ternary k)) (Node.ternary cond.asOperand x' y').parens
  | cast {b : Nat} {k : Primitive} {x : Node} : Derives b (.mixed false) x →
      Derives b (.form (.cast k)) (.castTo k x.asOperand)
  | intArith {b : Nat} {op : Op} {x y : Node} :
      Derives b (.category (.value .int)) x → Derives b (.category (.value .int)) y →
      Derives b (.form (.intArith op)) (.castTo .int (Node.operation op x y).parens)
  | intBits {b : Nat} {op : Op} {x y : Node} :
      Derives b (.category (.value .int)) x → Derives b (.category (.value .int)) y →
      Derives b (.form (.intBits op)) (.operation op x y)
  | shift {b : Nat} {op : Op} {x y : Node} :
      Derives b (.category (.value .int)) x → Derives b (.category (.value .int)) y →
      Derives b (.form (.shift op))
        (.binary op x.asOperand (Node.binary .bitAnd y.asOperand (.intLit 63)).parens)
  | intUnary {b : Nat} {op : Op} {x : Node} : Derives b (.category (.value .int)) x →
      Derives b (.form (.intUnary op)) (.unary op x.asOperand)
  | intExp {b : Nat} {x y : Node} :
      Derives b (.category (.value .int)) x → Derives b (.category (.value .int)) y →
      Derives b (.form .intExp)
        (.castTo .int (Node.binary .exp x.asPowerOperand y.asPowerOperand).parens)
  | safeDiv {b : Nat} {k : Primitive} {x y : Node} :
      Derives b (.category (.value k)) x → Derives b (.category (.value k)) y →
      Derives b (.form (.safeDiv k)) (.castTo k (.call "fuzz_safe_div" [x, y]))
  | safeMod {b : Nat} {x y : Node} :
      Derives b (.category (.value .int)) x → Derives b (.category (.value .int)) y →
      Derives b (.form .safeMod) (.castTo .int (.call "fuzz_safe_mod" [x, y]))
  | floatArith {b : Nat} {op : Op} {x y : Node} :
      Derives b (.category (.value .float)) x → Derives b (.category (.value .float)) y →
      Derives b (.form (.floatArith op)) (.operation op x y)
  | concat {b : Nat} {x y : Node} :
      Derives b (.category (.value .string)) x → Derives b (.category (.value .string)) y →
      Derives b (.form .concat) (.operation .concat x y)
  | interpolated {b : Nat} {parts : List Node} : (∀ p ∈ parts, Part env p) →
      Derives b (.form .interpolated) ((Node.ofArgs .interpolated parts).withType .string)
  | stringIndex {b : Nat} {s key : Node} : env.Reads .string s →
      Derives b (.category (.value .int)) key →
      Derives b (.form .stringIndex) ((Node.index s key).withType .string)
  | stringLast {b : Nat} {s : Node} : env.Reads .string s →
      Derives b (.form .stringIndex) ((Node.index s (.intLit (-1))).withType .string)
  -- Scalars of any kind.
  | mixedScalar {b : Nat} {permitArray : Bool} {k : Primitive} {n : Node} :
      Derives b (.category (.value k)) n → Derives b (.mixed permitArray) n
  | mixedArray {b : Nat} {k : Primitive} {elems : List Node} : 2 ≤ b →
      (∀ x ∈ elems, Derives (b - 1) (.category (.value k)) x) →
      Derives b (.mixed true)
        ((Node.ofArgs .arrayLit elems).withType (.array (.scalar k.scalar)))
  -- Values of a type.
  | scalarValue {b : Nat} {k : Primitive} {n : Node} : Derives b (.category (.value k)) n →
      Derives b (.value (.scalar k.scalar)) n
  | mixedValue {b : Nat} {n : Node} : Derives b (.mixed true) n → Derives b (.value .mixed) n
  | reused {b : Nat} {t : Ty} {n : Node} : t.scalarKind? = none → env.Reads t n →
      Derives b (.value t) n
  | enumValue {b : Nat} {e : EnumType} {l : Literal} : l ∈ e.values →
      Derives b (.value (.enum e)) (.lit l)
  | arrayValue {b : Nat} {elem : Ty} {elems : List Node} :
      (∀ x ∈ elems, Derives (b - 1) (.value elem) x) →
      Derives b (.value (.array elem)) ((Node.ofArgs .arrayLit elems).withType (.array elem))
  | tupleValue {b : Nat} {elems : List Ty} {args : List Node} : elems.length = args.length →
      (∀ t x, (t, x) ∈ elems.zip args → Derives (b - 1) (.value t) x) →
      Derives b (.value (.tuple elems)) ((Node.ofArgs .tupleLit args).withType (.tuple elems))
  | newValue {b : Nat} (c : ClassRef) :
      Derives b (.value (.object c)) ((Node.newObject c.name).withType (.object c))
  | nullValue {b : Nat} (t : Ty) :
      Derives b (.value (.nullable t)) (Node.null.withType (.nullable t))
  | innerValue {b : Nat} {t : Ty} {n : Node} : Derives b (.value t) n →
      Derives b (.value (.nullable t)) n
  | leftValue {b : Nat} {t u : Ty} {n : Node} : Derives b (.value t) n →
      Derives b (.value (.union t u)) n
  | rightValue {b : Nat} {t u : Ty} {n : Node} : Derives b (.value u) n →
      Derives b (.value (.union t u)) n
  -- Calls.
  | plainArgument {b : Nat} {p : Param} {x : Node} : p.mustCast = false →
      Derives b (.value p.type) x → Derives b (.argument p) x
  | strictArgument {b : Nat} {p : Param} {x : Node} : p.mustCast = true →
      Derives b (.value p.type) x → Derives b (.argument p) (.cast p.type x.asOperand)
  | functionCall {b : Nat} {f : FuncType} {args : List Node} : f.owner = none →
      f.minArgs ≤ args.length → args.length ≤ f.params.length →
      (∀ p x, (p, x) ∈ f.params.zip args → Derives (b - 1) (.argument p) x) →
      Derives b (.call f) ((Node.call f.name args).withType f.result)
  | methodCall {b : Nat} {f : FuncType} {c : ClassRef} {object : Node} {args : List Node} :
      f.owner = some c → Receives env c object →
      f.minArgs ≤ args.length → args.length ≤ f.params.length →
      (∀ p x, (p, x) ∈ f.params.zip args → Derives (b - 1) (.argument p) x) →
      Derives b (.call f) ((Node.methodCall object f.name args).withType f.result)

end TypedPhp
