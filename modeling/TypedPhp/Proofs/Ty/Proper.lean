import TypedPhp.Generate.Constant
import TypedPhp.Generate.Types
import TypedPhp.Proofs.Config.Tolerated
import TypedPhp.Proofs.Ty.Classes

set_option autoImplicit false

/-!
# Types that have values

A type is proper if neither `void` nor a function type nor an empty enum occurs in it, and the
values of its enums are of the kind that the enum names; without this last condition it has values
(`Ty.HasValues`), which is all that a draw of a value asks for. Every type that is drawn for a
variable or parameter is proper and not `mixed`, and it names classes of the table only. A type that
is drawn for a field, a result or an optional parameter is flat: a scalar kind with literals, or an
array of one.
-/

namespace TypedPhp

namespace Ty

/-- Neither `void` nor a function type occurs in a type, and its enums are as `P` says. -/
inductive Over (P : EnumType → Prop) : Ty → Prop where
  | scalar {k : Scalar} : k ≠ .void → Over P (.scalar k)
  | object (c : ClassRef) : Over P (.object c)
  | union {x y : Ty} : Over P x → Over P y → Over P (.union x y)
  | nullable {x : Ty} : Over P x → Over P (.nullable x)
  | array {elem : Ty} : Over P elem → Over P (.array elem)
  | tuple {elems : List Ty} : (∀ t ∈ elems, Over P t) → Over P (.tuple elems)
  | enum {e : EnumType} : P e → Over P (.enum e)

/-- Neither `void` nor a function type nor an empty enum occurs in a type: there are values of it. -/
abbrev HasValues (t : Ty) : Prop := t.Over fun e => e.values ≠ []

/-- A type has values, and the values of its enums are of the enum's kind. -/
abbrev Proper (t : Ty) : Prop := t.Over fun e => e.values ≠ [] ∧ ∀ l ∈ e.values, l.kind = e.kind

mutual

/-- The enums that stand anywhere in a type. -/
def enums : Ty → List EnumType
  | scalar _ | object _ | callable _ => []
  | union x y => x.enums ++ y.enums
  | nullable x => x.enums
  | array elem => elem.enums
  | tuple elems => enumsList elems
  | enum e => [e]

/-- The enums that stand in several types. -/
def enumsList : List Ty → List EnumType
  | [] => []
  | t :: ts => t.enums ++ enumsList ts

end

/-- A proper type that a value can be cast to where it is scalar: `mixed` is left out. -/
structure Storable (t : Ty) : Prop where
  proper : t.Proper
  unmixed : t ≠ .mixed

/-- A scalar kind that has literals. -/
inductive Literate : Ty → Prop where
  | of (k : Primitive) : Literate (.scalar k.scalar)

/-- A scalar kind that has literals, or an array of one. -/
inductive Flat : Ty → Prop where
  | scalar {t : Ty} : Literate t → Flat t
  | array {t : Ty} : Literate t → Flat (.array t)

/-- The types that are drawn for variables and parameters: only arrays nest, and what is nullable
or a member of a tuple or union is of a kind with literals. -/
inductive Drawn (names : List String) : Ty → Prop where
  | scalar {t : Ty} : Literate t → Drawn names t
  | object {c : ClassRef} : names[c.id]? = some c.name → Drawn names (.object c)
  | enum {e : EnumType} : e.values.length = 3 → (∀ l ∈ e.values, l.Drawn e.kind) →
      Drawn names (.enum e)
  | nullable {t : Ty} : Literate t → Drawn names (.nullable t)
  | union {x y : Ty} : Literate x → Literate y → Drawn names (.union x y)
  | tuple {elems : List Ty} : elems.length ≤ 3 → (∀ t ∈ elems, Literate t) →
      Drawn names (.tuple elems)
  | array {t : Ty} : Drawn names t → Drawn names (.array t)

variable {t : Ty}

/-- Weaker demands on the enums. -/
theorem Over.mono {P Q : EnumType → Prop} (hPQ : ∀ e, P e → Q e) (h : Over P t) : Over Q t := by
  induction h with
  | scalar hk => exact .scalar hk
  | object c => exact .object c
  | union _ _ ihx ihy => exact .union ihx ihy
  | nullable _ ih => exact .nullable ih
  | array _ ih => exact .array ih
  | tuple _ ih => exact .tuple ih
  | enum he => exact .enum (hPQ _ he)

theorem Proper.hasValues (h : Proper t) : HasValues t := h.mono fun _ he => he.1

theorem mem_enumsList {e : EnumType} {ts : List Ty} : e ∈ enumsList ts ↔ ∃ t ∈ ts, e ∈ t.enums := by
  induction ts with
  | nil => simp [enumsList]
  | cons t ts ih => simp [enumsList, ih]

/-- All enums in a type are as it demands. -/
theorem Over.enums {P : EnumType → Prop} (h : Over P t) : ∀ e ∈ t.enums, P e := by
  induction h with
  | scalar _ => exact nofun
  | object _ => exact nofun
  | union _ _ ihx ihy => exact List.forall_mem_append.2 ⟨ihx, ihy⟩
  | nullable _ ih => exact ih
  | array _ ih => exact ih
  | tuple _ ih =>
      intro e he
      obtain ⟨t, ht, he⟩ := mem_enumsList.1 he
      exact ih t ht e he
  | enum he => exact List.forall_mem_singleton.2 he

theorem Literate.proper (h : Literate t) : Proper t := by
  obtain ⟨k⟩ := h
  apply Over.scalar
  cases k <;> decide

theorem Literate.classes_eq (h : Literate t) : t.classes = [] := by
  obtain ⟨k⟩ := h
  rfl

theorem Literate.castKeyword (h : Literate t) : t.castKeyword?.isSome = true := by
  obtain ⟨k⟩ := h
  cases k <;> rfl

theorem Literate.writable (h : Literate t) : t.Writable := by
  obtain ⟨k⟩ := h
  exact .scalar _

theorem Literate.within {names : List String} (h : Literate t) : t.Within names :=
  .of_nil h.classes_eq h.writable

theorem Literate.storable (h : Literate t) : Storable t := by
  refine ⟨h.proper, ?_⟩
  obtain ⟨k⟩ := h
  cases k <;> simp [Primitive.scalar]

theorem Flat.proper (h : Flat t) : Proper t := by
  cases h with
  | scalar h => exact h.proper
  | array h => exact .array h.proper

theorem Flat.writable (h : Flat t) : t.Writable := by
  cases h with
  | scalar h => exact h.writable
  | array h => exact .array h.writable

theorem Flat.within {names : List String} (h : Flat t) : t.Within names := by
  cases h with
  | scalar h => exact h.within
  | array h => exact h.within.array

theorem Flat.isConstInitializable (h : Flat t) : t.isConstInitializable = true := by
  cases h with
  | scalar h => obtain ⟨k⟩ := h; cases k <;> rfl
  | array h => obtain ⟨k⟩ := h; cases k <;> rfl

theorem Flat.canDump (h : Flat t) : t.canDump = true := by
  cases h with
  | scalar h => obtain ⟨k⟩ := h; cases k <;> rfl
  | array h => obtain ⟨k⟩ := h; cases k <;> rfl

theorem Proper.not_isVoid (h : Proper t) : t.isVoid = false := by
  cases h with
  | @scalar k hk => cases k <;> simp_all [isVoid]
  | _ => rfl

/-- A scalar type that can be stored is of a kind with literals. -/
theorem Storable.literate {k : Scalar} (h : Storable (.scalar k)) : Literate (.scalar k) := by
  cases k with
  | void => exact absurd h.proper.not_isVoid (by simp [isVoid])
  | mixed => exact absurd rfl h.unmixed
  | bool => exact .of .bool
  | int => exact .of .int
  | float => exact .of .float
  | string => exact .of .string

/-- A type that is drawn can be stored. -/
theorem Drawn.storable {names : List String} (h : Drawn names t) : Storable t := by
  induction h with
  | scalar h => exact h.storable
  | object _ => exact ⟨.object _, nofun⟩
  | @enum e hlen hdrawn =>
      -- There are three values, so the enum is not empty.
      have hne : e.values ≠ [] := by
        intro hnil
        simp [hnil] at hlen
      exact ⟨.enum ⟨hne, fun l hl => (hdrawn l hl).kind⟩, nofun⟩
  | nullable h => exact ⟨.nullable h.proper, nofun⟩
  | union hx hy => exact ⟨.union hx.proper hy.proper, nofun⟩
  | tuple _ h => exact ⟨.tuple fun t ht => (h t ht).proper, nofun⟩
  | array _ ih => exact ⟨.array ih.proper, nofun⟩

/-- A type that is drawn names classes of the list only, and its values can be written. -/
theorem Drawn.within {names : List String} (h : Drawn names t) : t.Within names := by
  induction h with
  | scalar h => exact h.within
  | object h => exact .object h
  | enum _ hdrawn => exact .of_nil rfl (.enum fun l hl => (hdrawn l hl).writable)
  | nullable h => exact h.within.nullable
  | union hx hy =>
      refine .of_nil ?_ (.union hx.writable hy.writable)
      rw [Ty.classes, hx.classes_eq, hy.classes_eq]
      rfl
  | tuple hlen h =>
      refine .of_nil ?_ (.tuple hlen fun t ht => (h t ht).writable)
      exact classesList_eq_nil fun t ht => (h t ht).classes_eq
  | array _ ih => exact ih.array

theorem Storable.castKeyword {k : Scalar} (h : Storable (.scalar k)) :
    (Ty.scalar k).castKeyword?.isSome = true :=
  h.literate.castKeyword

end Ty

namespace Draw

variable {ρ : Type} [WordSource ρ] {E : Fault → Prop} {env : Env}

/-! ## Literals and kinds -/

/-- An integer is drawn, and never the least one. -/
theorem intValue_gives {p : Double} (hp : p.isProbability = false → E (.notAProbability p)) :
    Gives E (intValue p : Draw ρ Int64) (· ≠ Int64.minValue) := by
  unfold intValue
  refine (chance_gives hp).bind fun b _ => ?_
  apply Gives.ite
  · intro _
    have hall : EdgeCases.ints.all (· != Int64.minValue) = true := by decide
    have hedge : ∀ v ∈ EdgeCases.ints, v ≠ Int64.minValue :=
      fun v hv => bne_iff_ne.1 (List.all_eq_true.1 hall v hv)
    exact (pick_gives (by simp [EdgeCases.ints])).mono hedge
  · intro _
    -- The numbers are far from the ends of the range.
    have hsmall : ∀ {n : Int}, -19438420511 ≤ n → n ≤ 19438420511 →
        Int64.ofInt n ≠ Int64.minValue := by
      intro n hlow hhigh heq
      have hvalue : (Int64.ofInt n).toInt = n := Int64.toInt_ofInt_of_le (by omega) (by omega)
      rw [heq, Int64.toInt_minValue] at hvalue
      omega
    have hnegative : ∀ {n : Int}, 0 ≤ n → n ≤ 65534 → -Int64.ofInt n ≠ Int64.minValue := by
      intro n hlow hhigh
      rw [Int64.neg_ofInt]
      exact hsmall (by omega) (by omega)
    refine (int_gives false (by decide)).bind fun roll _ => ?_
    split
    · exact (int_gives true (by decide)).bind fun n hn =>
        Gives.pure (hsmall (by omega) (by omega))
    · exact (int_gives true (by decide)).bind fun n hn =>
        Gives.pure (hsmall (by omega) (by omega))
    · exact (int_gives true (by decide)).bind fun n hn => Gives.pure (hnegative hn.1 hn.2)
    · exact (int_gives true (by decide)).bind fun n hn => Gives.pure (hnegative hn.1 hn.2)
    · exact (int_gives true (by decide)).bind fun n hn => Gives.pure (hsmall (by omega) hn.2)

/-- A float is drawn. -/
theorem floatValue_gives {p : Double} (hp : p.isProbability = false → E (.notAProbability p)) :
    Gives E (floatValue p : Draw ρ Double) fun _ => True := by
  unfold floatValue
  refine (chance_gives hp).bind fun b _ => ?_
  apply Gives.ite
  · intro _
    exact (pick_gives (by simp [EdgeCases.floats])).mono fun _ _ => trivial
  · intro _
    -- The numerator is one word, shifted: no draw of it fails.
    refine Gives.bind (P := fun _ => True) ⟨fun s => Runs.ok rfl trivial⟩ fun numerator _ => ?_
    refine (int_gives false (by decide)).bind fun roll _ => ?_
    split
    · exact Gives.pure trivial
    all_goals exact (int_gives false (by decide)).bind fun scale _ => Gives.pure trivial

/-- A string is drawn. -/
theorem stringValue_gives {p : Double} (hp : p.isProbability = false → E (.notAProbability p)) :
    Gives E (stringValue p : Draw ρ (List UInt8)) fun _ => True := by
  have htexts : Gives E (pick EdgeCases.texts : Draw ρ (List UInt8)) fun _ => True :=
    (pick_gives (by simp [EdgeCases.texts])).mono fun _ _ => trivial
  have hpiece : Gives E (stringPiece : Draw ρ (List UInt8)) fun _ => True := by
    refine (int_gives false (by decide)).bind fun b _ => ?_
    exact Gives.ite (fun _ => Gives.pure trivial) fun _ => htexts
  unfold stringValue
  refine (chance_gives hp).bind fun b _ => ?_
  apply Gives.ite
  · intro _
    exact htexts
  · intro _
    refine (int_gives false (by decide)).bind fun n _ => ?_
    exact (hpiece.times n.toNat).bind fun pieces _ => Gives.pure trivial

/-- A literal of the kind that was asked for is drawn. -/
theorem literalValue_gives {p : Double} (hp : p.isProbability = false → E (.notAProbability p))
    (k : Primitive) :
    Gives E (literalValue p k : Draw ρ Literal) (Literal.Drawn k.scalar) := by
  cases k with
  | bool => exact half_gives.bind fun b _ => Gives.pure ⟨rfl, nofun⟩
  | int =>
      refine (intValue_gives hp).bind fun v hv => Gives.pure ⟨rfl, fun heq => hv ?_⟩
      exact Literal.int.inj heq
  | float => exact (floatValue_gives hp).bind fun v _ => Gives.pure ⟨rfl, nofun⟩
  | string => exact (stringValue_gives hp).bind fun v _ => Gives.pure ⟨rfl, nofun⟩

theorem kind_gives : Gives E (kind : Draw ρ Primitive) fun _ => True :=
  (pick_gives (by simp [Primitive.all])).mono fun _ _ => trivial

theorem scalarType_gives : Gives E (scalarType : Draw ρ Ty) Ty.Literate :=
  kind_gives.bind fun k _ => Gives.pure ⟨k⟩

/-! ## Types of variables and parameters -/

/-- The members of a union are scalar. -/
theorem unionType_gives (hE : E .outOfAttempts) :
    Gives E (unionType env : Draw ρ Ty) (Ty.Drawn env.symbols.classNames) := by
  unfold unionType
  refine scalarType_gives.bind fun x hx => ?_
  refine (suchThat_gives scalarType_gives hE env.attempts).bind fun y hy => ?_
  exact Gives.pure (.union hx hy.2)

theorem classRef_eq_ok {t : SymbolTable} {i : Nat} (h : i < t.classes.length) :
    t.classRef i = .ok ⟨i, t.classes[i].name⟩ := by
  rw [SymbolTable.classRef, SymbolTable.classAt, elemAt_eq_ok h]
  rfl

/-- A known class is one of the table, and there is one if the table holds any. -/
theorem knownClass_gives (symbols : SymbolTable) :
    Gives E (knownClass symbols : Draw ρ (Option ClassRef)) fun c? =>
      ∀ c, c? = some c → symbols.classNames[c.id]? = some c.name := by
  unfold knownClass
  split
  · exact Gives.pure (by simp)
  · rename_i hne
    -- The table is not empty here, so there is a place to draw.
    refine (place_gives fun h0 => ?_).bind fun i hi => ?_
    · exact absurd (List.eq_nil_of_length_eq_zero h0) hne
    · refine Gives.lift (a := some ⟨i, symbols.classes[i].name⟩) ?_ ?_
      · rw [classRef_eq_ok hi]
        rfl
      · intro c hc
        cases hc
        exact SymbolTable.classNames_of_getElem? (List.getElem?_eq_getElem hi)

section Types

variable (hc : env.config.ChancesIn E) (hE : E .outOfAttempts)

include hc

theorem interesting_gives {p : Double} (hp : p = env.config.interesting) :
    p.isProbability = false → E (.notAProbability p) := by
  intro hbad
  rw [hp] at hbad ⊢
  exact hc ("p_interesting_value", env.config.interesting) (by simp [Config.chances]) hbad

theorem literal_gives (k : Primitive) :
    Gives E (literal env k : Draw ρ Node) fun n => ∃ l, n = .lit l ∧ l.Drawn k.scalar := by
  refine (literalValue_gives (interesting_gives hc rfl) k).bind fun l hl => ?_
  exact Gives.pure ⟨l, rfl, hl⟩

/-- A value of an enum is of the enum's kind. -/
theorem enumValue_gives {k : Scalar} (hk : k = .int ∨ k = .float ∨ k = .string) :
    Gives E (enumValue env k : Draw ρ Literal) (Literal.Drawn k) := by
  rcases hk with rfl | rfl | rfl
  · exact literalValue_gives (interesting_gives hc rfl) .int
  · refine Gives.bind (P := fun _ => True) ?_ fun x _ => Gives.pure ⟨rfl, nofun⟩
    exact (int_gives false (by decide)).bind fun n _ => Gives.pure trivial
  · exact literalValue_gives (interesting_gives hc rfl) .string

include hE

/-- An enum has three values, all drawn for its kind. -/
theorem enumType_gives {k : Scalar} (hk : k = .int ∨ k = .float ∨ k = .string) :
    Gives E (enumType env k : Draw ρ Ty) fun t =>
      ∃ e : EnumType, t = .enum e ∧ e.kind = k ∧ e.values.length = 3 ∧
        ∀ l ∈ e.values, l.Drawn e.kind := by
  unfold enumType
  refine (distinct_gives (enumValue_gives hc hk) hE env.attempts 3).bind fun values hv => ?_
  exact Gives.pure ⟨⟨k, values⟩, rfl, rfl, hv.1, hv.2⟩

/-- An enum is drawn now and then. -/
theorem maybeEnumType_gives :
    Gives E (maybeEnumType env : Draw ρ (Option Ty)) fun t? =>
      ∀ t, t? = some t → t.Drawn env.symbols.classNames := by
  have henum : ∀ {k : Scalar}, k = .int ∨ k = .float ∨ k = .string →
      Gives E (some <$> enumType env k : Draw ρ (Option Ty)) fun t? =>
        ∀ t, t? = some t → t.Drawn env.symbols.classNames := by
    intro k hk
    refine (enumType_gives hc hE hk).map ?_
    rintro _ ⟨e, rfl, -, hlen, hdrawn⟩
    exact forall_of_some (.enum hlen hdrawn)
  unfold maybeEnumType
  refine kind_gives.bind fun k _ => ?_
  cases k with
  | bool => exact Gives.pure (by simp)
  | int => exact henum (Or.inl rfl)
  | float => exact henum (Or.inr (Or.inl rfl))
  | string => exact henum (Or.inr (Or.inr rfl))

/-- A type that nests at most three levels deep is one of those that are drawn. -/
theorem typeWithin_gives :
    ∀ {levels : Nat}, levels ≤ 3 →
      Gives E (typeWithin env levels : Draw ρ Ty) (Ty.Drawn env.symbols.classNames)
  | 0, _ => scalarType_gives.mono fun _ ht => .scalar ht
  | levels + 1, hlevels => by
      have hscalar : Gives E (scalarType : Draw ρ Ty) (Ty.Drawn env.symbols.classNames) :=
        scalarType_gives.mono fun _ ht => .scalar ht
      have hinner : Gives E (typeWithin env levels : Draw ρ Ty) (Ty.Drawn env.symbols.classNames) :=
        typeWithin_gives (by omega)
      -- The cases are those of the roll. Members of tuples, nullables and unions are always scalar.
      rw [typeWithin]
      refine (int_gives false (by omega)).bind fun roll _ => ?_
      split
      · exact hinner.bind fun t ht => Gives.pure ht.array
      · refine (maybeEnumType_gives hc hE).bind fun t? ht => ?_
        cases t? with
        | none => exact hinner
        | some t => exact Gives.pure (ht t rfl)
      · exact scalarType_gives.bind fun t ht => Gives.pure (.nullable ht)
      · apply Gives.ite
        · intro _
          refine (range_gives (by omega)).bind fun n hn => ?_
          refine (scalarType_gives.times n).bind fun ts hts => ?_
          exact Gives.pure (.tuple (by omega) hts.2)
        · intro _
          exact hscalar
      · refine (knownClass_gives env.symbols).bind fun c? hknown => ?_
        cases c? with
        | none => exact hscalar
        | some c => exact Gives.pure (.object (hknown c rfl))
      · apply Gives.ite
        · intro _
          exact unionType_gives hE
        · intro _
          exact hscalar
      · exact hscalar

theorem type_drawn : Gives E (type env : Draw ρ Ty) (Ty.Drawn env.symbols.classNames) :=
  typeWithin_gives hc hE (Nat.le_refl 3)

/-- A type for a variable or parameter can be stored, and it names known classes. -/
theorem type_gives : Gives E (type env : Draw ρ Ty) fun t =>
    t.Storable ∧ t.Within env.symbols.classNames :=
  (type_drawn hc hE).mono fun _ ht => ⟨ht.storable, ht.within⟩

end Types

/-- A type of constants is flat. -/
theorem constType_gives : Gives E (constType : Draw ρ Ty) Ty.Flat := by
  unfold constType
  refine scalarType_gives.bind fun elem helem => ?_
  refine (percent_gives (n := 25) (by decide)).bind fun b _ => ?_
  apply Gives.ite
  · intro _
    exact Gives.pure (.array helem)
  · intro _
    exact Gives.pure (.scalar helem)

end Draw

end TypedPhp
