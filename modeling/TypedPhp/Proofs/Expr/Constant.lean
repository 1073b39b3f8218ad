import TypedPhp.Proofs.Expr.Typing
import TypedPhp.Proofs.Syntax.Formed

set_option autoImplicit false

/-!
# Constants

`ConstantOf t n` lists the constants of a type. Every drawn constant is one of them
(`Draw.constant_gives`), and every one of them fits the type (`ConstantOf.fits`). A drawn constant
holds the least integer only if its type offers it, so it can be written if its type can.
-/

namespace TypedPhp

/-- A constant of a type: built from literals, nulls and array literals alone. -/
inductive ConstantOf : Ty → Node → Prop where
  | literal {k : Primitive} {l : Literal} : l.kind = k.scalar →
      ConstantOf (.scalar k.scalar) (.lit l)
  | mixed {k : Primitive} {l : Literal} : l.kind = k.scalar → ConstantOf .mixed (.lit l)
  | enum {e : EnumType} {l : Literal} : l ∈ e.values → ConstantOf (.enum e) (.lit l)
  | array {elem : Ty} {elems : List Node} : elems.length ≤ 3 →
      (∀ x ∈ elems, ConstantOf elem x) →
      ConstantOf (.array elem) ((Node.ofArgs .arrayLit elems).withType (.array elem))
  | null (t : Ty) : ConstantOf (.nullable t) (Node.null.withType (.nullable t))
  | inner {t : Ty} {n : Node} : ConstantOf t n → ConstantOf (.nullable t) n
  | left {t u : Ty} {n : Node} : ConstantOf t n → ConstantOf (.union t u) n
  | right {t u : Ty} {n : Node} : ConstantOf u n → ConstantOf (.union t u) n

/-- A constant of a type fits it, whatever is in scope. -/
theorem ConstantOf.fits {vars : List ScopeVar} {t : Ty} {n : Node} (h : ConstantOf t n) :
    Fits vars t n := by
  induction h with
  | @literal k l hl =>
      rw [← hl]
      exact .literal l
  | @mixed k l hl =>
      apply Fits.mixedScalar (k := k)
      rw [← hl]
      exact .literal l
  | enum hl => exact .enumLiteral hl
  | array _ _ ih => exact .arrayLit ih
  | null t => exact .null t
  | inner _ ih => exact .nullable ih
  | left _ ih => exact .left ih
  | right _ ih => exact .right ih

/-- A constant of a scalar kind with literals is one of them. -/
theorem ConstantOf.lit_of_scalar {k : Primitive} {n : Node} (h : ConstantOf (.scalar k.scalar) n) :
    ∃ l, n = .lit l ∧ l.kind = k.scalar := by
  -- The kind is not a constructor application, so the type is kept apart for the cases.
  generalize ht : Ty.scalar k.scalar = t at h
  cases h with
  | @literal j l hl => exact ⟨l, rfl, hl.trans (Ty.scalar.inj ht).symm⟩
  | mixed _ => cases k <;> cases ht
  | _ => cases ht

theorem ConstantOf.not_isVoid {t : Ty} {n : Node} (h : ConstantOf t n) : t.isVoid = false := by
  cases h with
  | @literal k l hl => cases k <;> rfl
  | _ => rfl

/-! ## Constants that can be written -/

/-- A node is not the least integer. -/
def Node.Writable (n : Node) : Prop := n.literal? ≠ some (.int Int64.minValue)

theorem Node.lit_writable {l : Literal} (h : l ≠ .int Int64.minValue) : (Node.lit l).Writable :=
  fun heq => h (Option.some.inj heq)

/-- A constant that is drawn for a type, which can be written if the values of the type can. -/
structure DrawnConstant (t : Ty) (n : Node) : Prop where
  constant : ConstantOf t n
  writable : t.Writable → n.Every Node.Writable

namespace DrawnConstant

variable {t u : Ty} {n : Node}

theorem lit {l : Literal} {k : Scalar} (h : ConstantOf t (.lit l)) (hl : l.Drawn k) :
    DrawnConstant t (.lit l) :=
  ⟨h, fun _ => .leaf (Node.lit_writable hl.writable)⟩

theorem enum {e : EnumType} {l : Literal} (h : l ∈ e.values) :
    DrawnConstant (.enum e) (.lit l) := by
  refine ⟨.enum h, fun hw => ?_⟩
  cases hw with
  | enum hvalues => exact .leaf (Node.lit_writable (hvalues l h))

theorem array {elems : List Node} (hlen : elems.length ≤ 3) (h : ∀ x ∈ elems, DrawnConstant t x) :
    DrawnConstant (.array t) ((Node.ofArgs .arrayLit elems).withType (.array t)) := by
  refine ⟨.array hlen fun x hx => (h x hx).constant, fun hw => ?_⟩
  cases hw with
  | array helem => exact .node nofun fun x hx => (h x hx).writable helem

theorem null (t : Ty) : DrawnConstant (.nullable t) (Node.null.withType (.nullable t)) :=
  ⟨.null t, fun _ => .leaf nofun⟩

theorem inner (h : DrawnConstant t n) : DrawnConstant (.nullable t) n := by
  refine ⟨.inner h.constant, fun hw => ?_⟩
  cases hw with
  | nullable ht => exact h.writable ht

theorem left (h : DrawnConstant t n) : DrawnConstant (.union t u) n := by
  refine ⟨.left h.constant, fun hw => ?_⟩
  cases hw with
  | union ht _ => exact h.writable ht

theorem right (h : DrawnConstant u n) : DrawnConstant (.union t u) n := by
  refine ⟨.right h.constant, fun hw => ?_⟩
  cases hw with
  | union _ hu => exact h.writable hu

end DrawnConstant

namespace Draw

variable {ρ : Type} [WordSource ρ] {E : Fault → Prop} {env : Env}

/-- A literal of a scalar kind is a constant of it; there is none of nothing. -/
theorem scalarLiteral_gives (hp : env.config.interesting.isProbability = false →
      E (.notAProbability env.config.interesting)) {k : Scalar} (hk : k = .void → E .voidLiteral) :
    Gives E (scalarLiteral env k : Draw ρ Node) (DrawnConstant (.scalar k)) := by
  have hliteral : ∀ k : Primitive,
      Gives E (literal env k : Draw ρ Node) (DrawnConstant (.scalar k.scalar)) := by
    intro k
    refine (literalValue_gives hp k).bind fun l hl => ?_
    exact Gives.pure (.lit (.literal hl.kind) hl)
  cases k with
  | void => exact Gives.throw (hk rfl)
  | bool => exact hliteral .bool
  | int => exact hliteral .int
  | float => exact hliteral .float
  | string => exact hliteral .string
  | mixed =>
      refine kind_gives.bind fun k _ => ?_
      refine (literalValue_gives hp k).bind fun l hl => ?_
      exact Gives.pure (.lit (.mixed hl.kind) hl)

/-- What is drawn as a constant of a type is one, whatever the type. A type without constants
and an empty enum can make the draw fail, and so can the chance of an edge case. -/
theorem constant_gives_admitting (hp : env.config.interesting.isProbability = false →
      E (.notAProbability env.config.interesting)) :
    ∀ {t : Ty}, (t.isConstInitializable = false → ∀ f, E f) →
      (∀ e ∈ t.enums, e.values = [] → E .emptyRange) →
      Gives E (constant env t : Draw ρ Node) (DrawnConstant t)
  -- Objects, tuples and functions have no constants, and `isConstInitializable` says so at every
  -- level.
  | .scalar k, hinit, _ => by
      rw [constant]
      refine scalarLiteral_gives hp fun hk => hinit ?_ _
      rw [hk]
      rfl
  | .enum e, _, henums => by
      rw [constant]
      refine (pick_gives (henums e (List.mem_singleton.2 rfl))).bind fun l hl => ?_
      exact Gives.pure (.enum hl)
  | .array elem, hinit, henums => by
      rw [constant]
      refine (range_gives (by omega)).bind fun n hn => ?_
      have helem : Gives E (constant env elem : Draw ρ Node) (DrawnConstant elem) :=
        constant_gives_admitting hp hinit henums
      refine (helem.times n).bind fun elems helems => ?_
      exact Gives.pure (.array (by omega) helems.2)
  | .nullable inner, hinit, henums => by
      rw [constant]
      refine (percent_gives (by decide)).bind fun b _ => ?_
      apply Gives.ite
      · intro _
        exact Gives.pure (.null inner)
      · intro _
        exact (constant_gives_admitting hp (t := inner) hinit henums).mono fun n hn => .inner hn
  | .union x y, hinit, henums => by
      have hleft : x.isConstInitializable = false → ∀ f, E f :=
        fun h => hinit (by rw [Ty.isConstInitializable, h, Bool.false_and])
      have hright : y.isConstInitializable = false → ∀ f, E f :=
        fun h => hinit (by rw [Ty.isConstInitializable, h, Bool.and_false])
      rw [Ty.enums, List.forall_mem_append] at henums
      rw [constant]
      refine half_gives.bind fun b _ => ?_
      apply Gives.ite
      · intro _
        exact (constant_gives_admitting hp hleft henums.1).mono fun n hn => .left hn
      · intro _
        exact (constant_gives_admitting hp hright henums.2).mono fun n hn => .right hn
  | .object _, hinit, _ => Gives.throw (hinit rfl _)
  | .tuple _, hinit, _ => Gives.throw (hinit rfl _)
  | .callable _, hinit, _ => Gives.throw (hinit rfl _)

/-- A constant is drawn for every proper type whose values can be written as constants. -/
theorem constant_gives (hc : env.config.ChancesIn E) {t : Ty} (hinit : t.isConstInitializable = true)
    (ht : t.Proper) : Gives E (constant env t : Draw ρ Node) (DrawnConstant t) := by
  refine constant_gives_admitting (interesting_gives hc rfl) ?_ fun e he hnil => ?_
  · rw [hinit]
    exact nofun
  · exact absurd hnil (ht.enums e he).1

end Draw

end TypedPhp
