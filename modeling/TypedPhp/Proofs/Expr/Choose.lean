import TypedPhp.Proofs.Expr.Draws
import TypedPhp.Proofs.Expr.Weighted

set_option autoImplicit false

/-!
# Whole expressions follow the grammar

Every form follows the grammar where the chooser does one level below, so by induction on the stack
an expression of a category does wherever the stack holds what the budget allows
(`Build.chooseOn_draws`). The stack that is provided always does, so values of a type and calls
follow the grammar as well. The surroundings have to be drawable; the faults are those of the
configuration.
-/

namespace TypedPhp

variable {ρ : Type} [WordSource ρ] {E : Fault → Prop} {env : Env} {V : Ty → Prop}

/-! ## Forms without operands -/

/-- A scalar variable holds values of the kind. -/
theorem Env.scalarVar_spec {k : Primitive} {n : Node} (h : env.scalarVar k = some n) :
    ∃ v ∈ env.scope.visible, k.HeldBy v ∧ n = Env.varNode v := by
  obtain ⟨v, hv, rfl⟩ := Option.map_eq_some_iff.1 h
  obtain ⟨hvis, hholds⟩ := Scope.find?_spec hv
  refine ⟨v, hvis, ?_, rfl⟩
  unfold Primitive.HeldBy
  split at hholds
  · rename_i j hj
    exact Or.inl (by simpa [hj] using hholds)
  · rename_i e he
    exact Or.inr ⟨e, he, by simpa using hholds⟩
  · cases hholds

namespace Draw

/-- The places of a kind in a tuple hold that kind. -/
theorem mem_tupleSlots {k : Scalar} {t : Ty} {i : Nat} (h : i ∈ tupleSlots k t) :
    ∃ elems, t = .tuple elems ∧ elems[i]? = some (.scalar k) := by
  cases t with
  | tuple elems =>
      refine ⟨elems, rfl, ?_⟩
      simp only [tupleSlots, List.mem_filterMap, Prod.exists] at h
      obtain ⟨t, j, hmem, hj⟩ := h
      split at hj
      · rename_i hk
        cases hj
        rw [(List.mk_mem_zipIdx_iff_getElem?.1 hmem)]
        cases t <;> simp_all [Ty.scalarKind?]
      · cases hj
  | _ => simp [tupleSlots] at h

/-- An element of a tuple follows the grammar. -/
theorem tupleElem_gives {budget : Nat} (k : Primitive) :
    Gives E (tupleElem env k : Draw ρ (Option Node)) fun n? =>
      ∀ n, n? = some n → Derives env budget (.form (.tupleElem k)) n := by
  unfold tupleElem
  split
  · exact Gives.pure (by simp)
  · rename_i v hv
    obtain ⟨hvis, hslots⟩ := Scope.find?_spec hv
    refine (pick_gives fun hnil => ?_).bind fun i hi => ?_
    · simp [hnil] at hslots
    · obtain ⟨elems, helems, hget⟩ := mem_tupleSlots hi
      exact Gives.pure (forall_of_some (.tupleElem hvis helems hget))

/-- A part of an interpolated string is a variable or a text. -/
theorem interpolatedPart_gives (hs : env.Drawable V E) :
    Gives E (interpolatedPart env : Draw ρ Node) (Part env) := by
  have htext : Gives E (literal env .string : Draw ρ Node) (Part env) := by
    refine (literal_gives hs.chances .string).mono fun n hn => ?_
    obtain ⟨l, rfl, hl⟩ := hn
    cases l with
    | string bytes => exact .text bytes
    | _ => cases hl.kind
  unfold interpolatedPart
  refine half_gives.bind fun b _ => ?_
  apply Gives.ite
  · intro _
    refine scalarType_gives.bind fun t ht => ?_
    obtain ⟨k⟩ := ht
    cases hv : env.varOf? (.scalar k.scalar) with
    | some v => exact Gives.pure (.variable (Env.varOf?_reads hv))
    | none => exact htext
  · intro _
    exact htext

/-- One of the options is drawn from a weighted list with any slot. -/
theorem draw_gives {κ : Type} {options : List (Choice κ)} {l : ChoiceList κ}
    (hl : ChoiceList.ofOptions options = .ok l) (hlen : options.length ≤ 65536) :
    Gives E (l.draw : Draw ρ (Choice κ)) (· ∈ options) := by
  obtain ⟨hne, hexpands⟩ := ChoiceList.ofOptions_expands hlen hl
  unfold ChoiceList.draw
  refine (place_gives fun h0 => absurd (List.eq_nil_of_length_eq_zero h0) hne).bind
    fun slot hslot => ?_
  obtain ⟨i, c, hc, -, -, hat⟩ := hexpands.chosen slot hslot
  exact Gives.lift hat (List.mem_of_getElem? hc)

/-- The forms of a category are few, and they have a weighted list. -/
theorem ofCategory_eq_ok (c : Category) :
    (ExprForm.formsOf c).length ≤ 65536 ∧ ∃ l, ExprForm.ofCategory c = .ok l := by
  cases c with
  | cond => exact ⟨by decide, _, rfl⟩
  | value k => cases k <;> exact ⟨by decide, _, rfl⟩

theorem offered_literal (c : Category) : (ExprForm.literal c.kind).Offered c := by
  cases c with
  | cond => decide
  | value k => cases k <;> decide

end Draw

namespace Build

/-! ## Forms -/

section Forms

variable {stack budget : Nat} {choose : Chooser ρ} (hch : Faithful E env stack choose)
  (hfits : budget < stack)

include hch hfits

omit [WordSource ρ] in
/-- A step after two expressions of one kind. -/
theorem bind_pair {β : Type} {k : Primitive} {next : Node × Node → Build ρ β} {R : β → Prop}
    (h : ∀ x y, Derives env budget (.category (.value k)) x →
      Derives env budget (.category (.value k)) y → Draws E env budget (next (x, y)) R) :
    Draws E env budget (pair choose k >>= next) R := by
  refine Draws.bind (P := fun p => Derives env budget (.category (.value k)) p.1 ∧
    Derives env budget (.category (.value k)) p.2) ?_ fun p hp => h p.1 p.2 hp.1 hp.2
  refine (hch budget hfits (.value k)).bind fun x hx => ?_
  exact (hch budget hfits (.value k)).bind fun y hy => .pure ⟨hx, hy⟩

/-- A comparison follows the grammar. -/
theorem comparison_draws (op : Op) :
    Draws E env budget (comparison choose op) (Derives env budget (.form (.compare op))) := by
  unfold comparison
  refine (Draws.blind Draw.kind_gives).bind fun k _ => ?_
  refine bind_pair hch hfits fun x y hx hy => ?_
  dsimp only
  -- Equality of floats goes through a helper, so the general rule is left with the other cases.
  split
  · exact .pure (.floatsEqual (Or.inl rfl) hx hy)
  · exact .pure (.floatsEqual (Or.inr rfl) hx hy)
  · exact .pure (.floatsDiffer (Or.inl rfl) hx hy)
  · exact .pure (.floatsDiffer (Or.inr rfl) hx hy)
  · rename_i h1 h2 h3 h4
    refine .pure (.compare ?_ hx hy)
    rintro ⟨rfl, rfl | rfl | rfl | rfl⟩
    · exact h1 rfl rfl
    · exact h2 rfl rfl
    · exact h3 rfl rfl
    · exact h4 rfl rfl

/-- A conditional expression follows the grammar. -/
theorem ternary_draws (k : Primitive) :
    Draws E env budget (ternary choose k) (Derives env budget (.form (.ternary k))) := by
  have hmaybe : ∀ (b : Bool) (x : Node), (if b then x.parens else x) = x ∨
      (if b then x.parens else x) = x.parens := by
    intro b x
    cases b
    · exact Or.inl rfl
    · exact Or.inr rfl
  unfold ternary
  refine (hch budget hfits .cond).bind fun cond hcond => ?_
  refine bind_pair hch hfits fun x y hx hy => ?_
  refine (Draws.blind Draw.half_gives).bind fun b _ => ?_
  refine (Draws.blind Draw.half_gives).bind fun b' _ => ?_
  exact .pure (.ternary (hmaybe b x) (hmaybe b' y) hcond hx hy)

omit [WordSource ρ] in
/-- A replacement for null follows the grammar. -/
theorem nullCoalesce_draws (k : Primitive) :
    Draws E env budget (nullCoalesce choose k) fun n? =>
      ∀ n, n? = some n → Derives env budget (.form (.nullCoalesce k)) n := by
  unfold nullCoalesce
  refine .get_bind fun g henv _ => ?_
  rw [henv]
  split
  · exact .pure (by simp)
  · rename_i v hv
    refine (hch budget hfits (.value k)).bind fun y hy => ?_
    exact .pure (forall_of_some (.nullCoalesce (Env.varOf?_reads hv) hy))

/-- A character of a string follows the grammar. -/
theorem stringIndex_draws :
    Draws E env budget (stringIndex choose) fun n? =>
      ∀ n, n? = some n → Derives env budget (.form .stringIndex) n := by
  unfold stringIndex
  refine .get_bind fun g henv _ => ?_
  rw [henv]
  split
  · exact .pure (by simp)
  · rename_i v hv
    have hreads := Env.varOf?_reads hv
    refine (Draws.blind (Draw.int_gives false (by decide))).bind fun roll _ => ?_
    apply Draws.ite
    · intro _
      refine (hch budget hfits (.value .int)).bind fun key hkey => ?_
      exact .pure (forall_of_some (.stringIndex hreads hkey))
    · intro _
      exact .pure (forall_of_some (.stringLast hreads))

/-- A logical operation follows the grammar, in parentheses where its operator is a word. -/
theorem logical_draws (op : Op) :
    Draws E env budget (ofForm choose (.logical op)) fun n? =>
      ∀ n, n? = some n → Derives env budget (.form (.logical op)) n := by
  refine bind_pair hch hfits fun x y hx hy => ?_
  dsimp only
  split
  · exact .pure (forall_of_some (.logicalWord (Or.inl rfl) hx hy))
  · exact .pure (forall_of_some (.logicalWord (Or.inr (Or.inl rfl)) hx hy))
  · exact .pure (forall_of_some (.logicalWord (Or.inr (Or.inr rfl)) hx hy))
  · rename_i h1 h2 h3
    refine .pure (forall_of_some (.logical ?_ hx hy))
    rintro (rfl | rfl | rfl)
    · exact h1 rfl
    · exact h2 rfl
    · exact h3 rfl

variable (hs : env.Drawable (Ty.ValuedIn E) E)

include hs

/-- An expression of a form follows the grammar. -/
theorem ofForm_draws (f : ExprForm) :
    Draws E env budget (ofForm choose f) fun n? =>
      ∀ n, n? = some n → Derives env budget (.form f) n := by
  -- One case for each form: the kinds of the operands are those of its rule.
  cases f with
  | compare op => exact (comparison_draws hch hfits op).map fun n hn => forall_of_some hn
  | spaceship =>
      refine (Draws.blind Draw.kind_gives).bind fun k _ => ?_
      exact bind_pair hch hfits fun x y hx hy => .pure (forall_of_some (.spaceship hx hy))
  | logical op => exact logical_draws hch hfits op
  | not =>
      refine (hch budget hfits .cond).bind fun x hx => ?_
      exact .pure (forall_of_some (.not hx))
  | var k =>
      refine .get_bind fun g henv _ => .pure fun n hn => ?_
      rw [henv] at hn
      obtain ⟨v, hvis, hheld, rfl⟩ := Env.scalarVar_spec hn
      exact .var hvis hheld
  | literal k =>
      refine (Draws.draw (Draw.literal_gives hs.chances k)).map fun n hn => ?_
      obtain ⟨l, rfl, hl⟩ := hn
      exact forall_of_some (.formLiteral hl)
  | call k =>
      refine (callOf_draws hch hfits hs _).mono fun n? hn n heq => ?_
      obtain ⟨f, hf, hty, hcall⟩ := hn n heq
      exact .formCall hf (Ty.identical_scalar_iff.1 hty) hcall
  | field k => exact (fieldOf_draws hs _).mono fun n? hn n heq => .field (hn n heq)
  | tupleElem k =>
      exact Draws.draw (d := fun env => Draw.tupleElem env k) (Draw.tupleElem_gives k)
  | nullCoalesce k => exact nullCoalesce_draws hch hfits k
  | ternary k => exact (ternary_draws hch hfits k).map fun n hn => forall_of_some hn
  | cast k =>
      refine (mixed_draws hch hfits false).bind fun x hx => ?_
      exact .pure (forall_of_some (.cast hx))
  | intArith op => exact bind_pair hch hfits fun x y hx hy => .pure (forall_of_some (.intArith hx hy))
  | intBits op => exact bind_pair hch hfits fun x y hx hy => .pure (forall_of_some (.intBits hx hy))
  | shift op => exact bind_pair hch hfits fun x y hx hy => .pure (forall_of_some (.shift hx hy))
  | intUnary op =>
      refine (hch budget hfits (.value .int)).bind fun x hx => ?_
      exact .pure (forall_of_some (.intUnary hx))
  | intExp => exact bind_pair hch hfits fun x y hx hy => .pure (forall_of_some (.intExp hx hy))
  | safeDiv k => exact bind_pair hch hfits fun x y hx hy => .pure (forall_of_some (.safeDiv hx hy))
  | safeMod => exact bind_pair hch hfits fun x y hx hy => .pure (forall_of_some (.safeMod hx hy))
  | floatArith op =>
      exact bind_pair hch hfits fun x y hx hy => .pure (forall_of_some (.floatArith hx hy))
  | concat => exact bind_pair hch hfits fun x y hx hy => .pure (forall_of_some (.concat hx hy))
  | interpolated =>
      have hparts : Draw.Gives E (Draw.interpolated env : Draw ρ Node)
          (Derives env budget (.form .interpolated)) := by
        refine (Draw.range_gives (by omega)).bind fun n _ => ?_
        refine ((Draw.interpolatedPart_gives hs).times n).bind fun parts hparts => ?_
        exact .pure (.interpolated hparts.2)
      exact (Draws.draw hparts).map fun n hn => forall_of_some hn
  | stringIndex => exact stringIndex_draws hch hfits

/-- An expression of a drawn option is one of a form that the category offers. -/
theorem ofChoice_draws {c : Category} {choice : Choice ExprForm}
    (h : choice ∈ ExprForm.formsOf c) :
    Draws E env budget (ofChoice choose c choice) fun n =>
      ∃ f : ExprForm, f.Offered c ∧ Derives env budget (.form f) n := by
  have hliteral : Draws E env budget
      (draw fun env => Draw.literal env c.kind : Build ρ Node) fun n =>
        ∃ f : ExprForm, f.Offered c ∧ Derives env budget (.form f) n := by
    refine (Draws.draw (Draw.literal_gives hs.chances c.kind)).mono fun n hn => ?_
    obtain ⟨l, rfl, hl⟩ := hn
    exact ⟨_, Draw.offered_literal c, .formLiteral hl⟩
  -- The option, its fallback, and a literal if neither has anything to read.
  unfold ofChoice
  refine (ofForm_draws hch hfits hs choice.option).bind fun n? hn => ?_
  split
  · rename_i n
    exact .pure ⟨_, ⟨choice, h, Or.inl rfl⟩, hn n rfl⟩
  · split
    · exact hliteral
    · rename_i form hfallback
      refine (ofForm_draws hch hfits hs form).bind fun m? hm => ?_
      split
      · rename_i m
        exact .pure ⟨_, ⟨choice, h, Or.inr hfallback⟩, hm m rfl⟩
      · exact hliteral

end Forms

/-! ## Expressions at a depth -/

section Depth

variable {stack budget : Nat} (hs : env.Drawable (Ty.ValuedIn E) E)

include hs

/-- An expression follows the grammar if the chooser for its parts does: beyond the greatest depth
it is a literal, and below it its parts have one level less of the budget. -/
theorem chooseWith_draws {choose : Chooser ρ} (hch : Faithful E env stack choose)
    (hfits : budget < stack + 1) (c : Category) :
    Draws E env budget (chooseWith choose c) (Derives env budget (.category c)) := by
  obtain ⟨hlen, forms, hforms⟩ := Draw.ofCategory_eq_ok c
  unfold chooseWith
  refine .get_bind fun g _ hbudget => ?_
  apply Draws.ite
  · intro hdeep
    have hzero : budget = 0 := by
      rw [← hbudget, Generator.budget]
      omega
    refine (Draws.draw (Draw.literal_gives hs.chances c.kind)).mono fun n hn => ?_
    obtain ⟨l, rfl, hl⟩ := hn
    rw [hzero]
    exact .literal hl
  · intro hdeep
    obtain ⟨below, rfl⟩ : ∃ below, budget = below + 1 := by
      refine Nat.exists_eq_add_one.2 ?_
      rw [← hbudget, Generator.budget]
      omega
    refine .lift_bind hforms ?_
    refine (Draws.blind (Draw.draw_gives hforms hlen)).bind fun choice hchoice => ?_
    have hparts := ofChoice_draws hch (Nat.lt_of_succ_lt_succ hfits) hs hchoice
    refine Draws.bind (.deeper hparts) fun n hn => ?_
    obtain ⟨f, hoffered, hform⟩ := hn
    refine (Draws.draw (hs.chances.chance_gives "p_paren" (by simp [Config.chances]))).bind
      fun b _ => ?_
    apply Draws.ite
    · intro _
      exact .pure (.wrapped hoffered hform)
    · intro _
      exact .pure (.bare hoffered hform)

/-- An expression of a category follows the grammar, on every stack that holds what the budget
allows. -/
theorem chooseOn_draws : ∀ stack, Faithful E env stack (chooseOn stack : Chooser ρ)
  | 0, _, hfits, _ => absurd hfits (Nat.not_lt_zero _)
  | stack + 1, _, hfits, c => chooseWith_draws hs (chooseOn_draws stack) hfits c

/-- The stack that is provided holds what the budget allows. -/
theorem onStack_draws {α : Type} {x : Chooser ρ → Build ρ α} {P : α → Prop}
    (hx : ∀ stack choose, Faithful E env stack choose → budget < stack →
      Draws E env budget (x choose) P) :
    Draws E env budget (onStack x) P := by
  refine .get_bind fun g _ hbudget => ?_
  refine hx (g.config.maxExprDepth + 2) _ (chooseOn_draws hs _) ?_
  rw [← hbudget, Generator.budget]
  omega

/-- An expression of a category follows the grammar. -/
theorem choose_draws (c : Category) :
    Draws E env budget (choose c : Build ρ Node) (Derives env budget (.category c)) :=
  onStack_draws hs fun _ _ hch hfits => hch _ hfits c

/-- A value of a type follows the grammar. -/
theorem value_draws {t : Ty} (ht : t.ValuedIn E) :
    Draws E env budget (value t : Build ρ Node) (Derives env budget (.value t)) :=
  onStack_draws hs fun _ _ hch hfits => valueIn_draws hch hfits ht

theorem callOfType_draws (t : Ty) :
    Draws E env budget (callOfType t : Build ρ (Option Node)) fun n? => ∀ n, n? = some n →
      ∃ f ∈ env.symbols.funcs, f.result.identical t = true ∧ Derives env budget (.call f) n :=
  onStack_draws hs fun _ _ hch hfits => callOf_draws hch hfits hs t

end Depth

end Build

end TypedPhp
