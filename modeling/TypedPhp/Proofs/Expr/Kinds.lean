import TypedPhp.Proofs.Stmt.Grammar

set_option autoImplicit false

/-!
# Kinds of expressions

An expression fits at most one primitive kind, whatever is in scope: the kind can be read off its
operators and off the static types of its nodes (`Node.kind?`). The same holds of what fits an enum.
-/

namespace TypedPhp

/-- The kind of the values of a static type: a scalar type, or an enum. -/
def Ty.valueKind? : Ty → Option Scalar
  | scalar k => some k
  | enum e => some e.kind
  | _ => none

/-- The kind of the values of an operation without static type. A call without one is a comparison
of floats. -/
def Op.kind? : Op → Option Scalar
  | equal | identical | notEqual | notIdentical | less | lessOrEqual | greater | greaterOrEqual
  | and | or | andWord | orWord | xorWord | not | call => some .bool
  | bitAnd | bitOr | bitXor | shiftLeft | shiftRight | negation | bitNot | unaryPlus
  | spaceship => some .int
  | add | sub | mul => some .float
  | concat => some .string
  | _ => none

/-- The kind of the values of an expression. -/
def Node.kind? : Node → Option Scalar
  | mk .parens [x] _ _ => x.kind?
  | mk .ternary [_, x, _] _ _ => x.kind?
  | mk .nullCoalesce [_, x] _ _ => x.kind?
  | mk op _ _ type =>
    match type with
    | some t => t.valueKind?
    | none => op.kind?

theorem Op.kind?_of_mem :
    (∀ op ∈ comparisons, op.kind? = some .bool) ∧ (∀ op ∈ connectives, op.kind? = some .bool) ∧
      (∀ op ∈ bitwise, op.kind? = some .int) ∧ (∀ op ∈ shifts, op.kind? = some .int) ∧
      (∀ op ∈ signs, op.kind? = some .int) ∧ ∀ op ∈ arithmetic, op.kind? = some .float := by
  decide

namespace Node

theorem kind?_ofArgs {op : Op} {args : List Node} {k : Scalar} (hop : op.kind? = some k) :
    (ofArgs op args).kind? = some k := by
  -- The operators that hand on the kind of a child have none of their own.
  cases op <;> first | exact hop | cases hop

theorem kind?_lit (l : Literal) : (lit l).kind? = some l.kind := by
  cases l <;> rfl

theorem kind?_varNode (v : ScopeVar) : (Env.varNode v).kind? = v.type.valueKind? := rfl

end Node

/-- An enum is identical to enums of its kind only. -/
theorem Ty.valueKind?_of_identical_enum {t : Ty} {e : EnumType}
    (h : t.identical (.enum e) = true) : t.valueKind? = some e.kind := by
  cases t with
  | enum f =>
      rw [identical, Bool.and_eq_true, beq_iff_eq] at h
      rw [valueKind?, h.1]
  | _ => simp [identical] at h

namespace Fits

variable {vars vars' : List ScopeVar} {t : Ty} {n : Node}

/-- What fits a scalar type of a primitive kind, or an enum of literals of one kind, has that
kind. -/
theorem kind?_of_type (h : Fits vars t n) {k : Primitive}
    (ht : t = .scalar k.scalar ∨ ∃ e : EnumType, t = .enum e ∧ e.kind = k.scalar ∧
      ∀ l ∈ e.values, l.kind = e.kind) : n.kind? = some k.scalar := by
  obtain ⟨hcompare, hconnect, hbits, hshift, hsign, harith⟩ := Op.kind?_of_mem
  -- The rules for scalar types name the kind; those for enums are of variables and literals.
  have hscalar : ∀ {j : Scalar}, (.scalar j : Ty) = .scalar k.scalar ∨
      (∃ e : EnumType, (.scalar j : Ty) = .enum e ∧ e.kind = k.scalar ∧
        ∀ l ∈ e.values, l.kind = e.kind) → j = k.scalar := by
    rintro j (heq | ⟨e, heq, -⟩)
    · exact Ty.scalar.inj heq
    · cases heq
  have hop : ∀ {op : Op} {args : List Node} {j : Scalar}, op.kind? = some j →
      (.scalar j : Ty) = .scalar k.scalar ∨ (∃ e : EnumType, (.scalar j : Ty) = .enum e ∧
        e.kind = k.scalar ∧ ∀ l ∈ e.values, l.kind = e.kind) →
      (Node.ofArgs op args).kind? = some k.scalar := by
    intro op args j hkind hj
    rw [← hscalar hj]
    exact Node.kind?_ofArgs hkind
  induction h with
  | parens _ ih => exact ih ht
  | literal l => rw [Node.kind?_lit, hscalar ht]
  | scalarVar _ hty | enumVar _ hty => rw [Node.kind?_varNode, hty, ← hscalar ht, Ty.valueKind?]
  | field | tupleElem | call | methodCall | cast | arith | safeMod | safeDiv | interpolated
  | stringIndex => exact congrArg some (hscalar ht)
  | ternary _ _ _ _ ih _ => exact ih ht
  | nullCoalesce _ _ _ ih => exact ih ht
  | floatsEqual | not | spaceship | concat => exact hop rfl ht
  | compare h _ _ _ _ => exact hop (hcompare _ h) ht
  | connect h _ _ _ _ => exact hop (hconnect _ h) ht
  | bits h _ _ _ _ => exact hop (h.elim (hbits _) (hshift _)) ht
  | sign h _ _ => exact hop (hsign _ h) ht
  | floatArith h _ _ _ _ => exact hop (harith _ h) ht
  | mixedScalar _ _ | mixedArray _ _ =>
      have hmixed := hscalar ht
      cases k <;> cases hmixed
  | sameVar hnone _ hty =>
      rcases ht with rfl | ⟨e, rfl, hkind, -⟩
      · cases hnone
      · rw [Node.kind?_varNode, Ty.valueKind?_of_identical_enum hty, hkind]
  | @enumLiteral e l hl =>
      rcases ht with heq | ⟨f, heq, hkind, hvalues⟩
      · cases heq
      · cases heq
        rw [Node.kind?_lit, hvalues l hl, hkind]
  | arrayLit | tupleLit | newObject | null | nullable | left | right =>
      rcases ht with heq | ⟨e, heq, -⟩ <;> cases heq

/-- What fits a primitive kind has that kind. -/
theorem kind? {k : Primitive} (h : Fits vars (.scalar k.scalar) n) : n.kind? = some k.scalar :=
  h.kind?_of_type (Or.inl rfl)

/-- An expression fits one primitive kind at most, whatever is in scope. -/
theorem kind_unique {j k : Primitive} (hj : Fits vars (.scalar j.scalar) n)
    (hk : Fits vars' (.scalar k.scalar) n) : j = k := by
  have heq := hj.kind?.symm.trans hk.kind?
  revert heq
  cases j <;> cases k <;> decide

/-- What fits the type of a switch fits no float. -/
theorem not_float_of_tag (ht : TagType t) (h : Fits vars t n) : ¬ Fits vars' .float n := by
  intro hfloat
  have hkind := Fits.kind? (k := .float) hfloat
  have hne : ∀ k : Primitive, k ≠ .float → n.kind? ≠ some k.scalar := by
    intro k hk heq
    rw [hkind] at heq
    cases k <;> first | exact hk rfl | cases heq
  cases ht with
  | int => exact hne .int nofun (Fits.kind? (k := .int) h)
  | string => exact hne .string nofun (Fits.kind? (k := .string) h)
  | enum hk hvalues _ =>
      rcases hk with hk | hk
      · exact hne .int nofun (h.kind?_of_type (Or.inr ⟨_, rfl, hk, hvalues⟩))
      · exact hne .string nofun (h.kind?_of_type (Or.inr ⟨_, rfl, hk, hvalues⟩))

end Fits

end TypedPhp
