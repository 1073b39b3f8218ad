import TypedPhp.Proofs.Expr.Choose
import TypedPhp.Proofs.Stmt.Grammar

set_option autoImplicit false

/-!
# Draws of simple statements follow the grammar

What is drawn for a statement that holds no other: places and values of assignments, first values,
dumps, calls, returns and the types of switches. Next to the chances of the configuration, only a
loop that waits for a suitable sample can make such a draw fail.
-/

namespace TypedPhp

theorem Place.type_eq {env : Env} {t : Ty} {n : Node} (h : Place env t n) : n.type = some t := by
  cases h with
  | var _ hty => rw [← hty]; rfl
  | field _ _ _ => rfl

theorem TagType.proper {t : Ty} (h : TagType t) : t.Proper := by
  cases h with
  | int => exact .scalar (by decide)
  | string => exact .scalar (by decide)
  | enum _ hkind hne => exact .enum ⟨hne, hkind⟩

theorem TagType.isConstInitializable {t : Ty} (h : TagType t) : t.isConstInitializable = true := by
  cases h <;> rfl

/-- A constant of a type of a switch is a literal. -/
theorem TagType.literal {t : Ty} {n : Node} (h : TagType t) (hn : ConstantOf t n) :
    ∃ l, n = .lit l := by
  cases h with
  | int =>
      obtain ⟨l, hl, -⟩ := ConstantOf.lit_of_scalar (k := .int) hn
      exact ⟨l, hl⟩
  | string =>
      obtain ⟨l, hl, -⟩ := ConstantOf.lit_of_scalar (k := .string) hn
      exact ⟨l, hl⟩
  | enum _ _ _ =>
      cases hn with
      | enum _ => exact ⟨_, rfl⟩

namespace StmtKind

/-- The kinds of statements that hold other statements. -/
def nests : StmtKind → Bool
  | .block | .condition | .loop | .switch => true
  | _ => false

/-- What holds other statements has a weight only where there is room for them, and a return only
where there are statements around it. -/
theorem of_weight_pos {kind : StmtKind} {w room : Nat} {isNested : Bool}
    (h : (kind, w) ∈ weights room isNested) (hpos : 0 < w) :
    (kind.nests = true → 0 < room) ∧ (kind = .returnJump → isNested = true) := by
  simp only [weights, List.mem_cons, Prod.mk.injEq, List.not_mem_nil, or_false] at h
  constructor
  · intro hnests
    cases kind <;> simp_all [nests]
  · rintro rfl
    cases isNested <;> simp_all

end StmtKind

namespace Draw

variable {ρ : Type} [WordSource ρ] {E : Fault → Prop} {env : Env} {V : Ty → Prop}

/-! ## Places -/

/-- A field that is assigned is an accessible one on an object at hand. -/
theorem fieldPlace_gives (hs : env.Drawable V E) {t : Ty} (ht : t.Literate) :
    Gives E (fieldPlace env t : Draw ρ (Option Node)) fun p? =>
      ∀ p, p? = some p → Place env t p := by
  obtain ⟨members, hmembers, hall⟩ := hs.fieldsOf_eq_ok t
  unfold fieldPlace
  refine Gives.bind_lift hmembers ?_
  dsimp only
  split
  · exact Gives.pure (by simp)
  · rename_i candidates hne
    refine (pick_gives fun h => absurd h hne).bind fun m hm => ?_
    obtain ⟨hmem, hreachable⟩ := List.mem_filter.1 hm
    obtain ⟨hknown, hty⟩ := hall m hmem
    apply Gives.pure
    intro p hp
    obtain ⟨object, hobject, rfl⟩ := Option.map_eq_some_iff.1 hp
    -- In its own class a field is reached through the current object, else through a variable.
    cases hc : env.isCurrent m.1 with
    | true =>
        simp only [hc, if_true, Option.some.injEq] at hobject
        exact .field ht ⟨hknown, hty, Or.inr hc⟩ (Or.inl ⟨hc, hobject.symm⟩)
    | false =>
        simp only [hc, Bool.false_eq_true, if_false] at hobject
        simp only [hc, Bool.false_or, Bool.and_eq_true, decide_eq_true_eq] at hreachable
        exact .field ht ⟨hknown, hty, Or.inl hreachable.1⟩ (Or.inr ⟨hc, Env.varOf?_reads hobject⟩)

/-- A variable that is assigned is visible. -/
theorem varPlace_gives :
    Gives E (varPlace env : Draw ρ (Option Node)) fun p? =>
      ∀ p, p? = some p → ∃ v ∈ env.scope.visible, p = Env.varNode v := by
  unfold varPlace
  dsimp only
  refine Gives.ite_bind (P := fun isLocal => isLocal = true → env.scope.current ≠ [])
    (fun _ => Gives.pure (by simp)) (fun h => ?_) fun isLocal hlocal => ?_
  · refine half_gives.mono fun b _ _ hnil => h ?_
    rw [hnil]
    rfl
  -- The drawn variable is looked up by its name again, so it is the visible one of that name.
  · have hfound : ∀ v? : Option ScopeVar, Gives E
        (Pure.pure (v?.bind fun v => (env.scope.findName? v.name).map Env.varNode) :
          Draw ρ (Option Node))
        fun p? => ∀ p, p? = some p → ∃ v ∈ env.scope.visible, p = Env.varNode v := by
      intro v?
      apply Gives.pure
      intro p hp
      obtain ⟨v, -, hv⟩ := Option.bind_eq_some_iff.1 hp
      obtain ⟨w, hw, rfl⟩ := Option.map_eq_some_iff.1 hv
      exact ⟨w, (Scope.find?_spec hw).1, rfl⟩
    apply Gives.ite
    · intro h
      refine Gives.bind (P := fun _ => True) ?_ fun v? _ => hfound v?
      exact (pick_gives fun hnil => absurd hnil (hlocal h)).map fun _ _ => trivial
    · intro _
      refine Gives.ite_bind (P := fun _ => True) (fun _ => Gives.pure trivial) (fun h => ?_)
        fun v? _ => hfound v?
      refine (pick_gives fun hnil => absurd ?_ h).map fun _ _ => trivial
      rw [hnil]
      rfl

/-- A place to assign to is a visible variable or an accessible field. -/
theorem place?_place (hs : env.Drawable V E) :
    Gives E (place? env : Draw ρ (Option Node)) fun p? =>
      ∀ p, p? = some p → ∃ t, Place env t p := by
  unfold place?
  refine (percent_gives (by decide)).bind fun b _ => ?_
  have hvar : Gives E (varPlace env : Draw ρ (Option Node)) fun p? =>
      ∀ p, p? = some p → ∃ t, Place env t p := by
    refine varPlace_gives.mono fun p? hp p heq => ?_
    obtain ⟨v, hv, rfl⟩ := hp p heq
    exact ⟨v.type, .var hv rfl⟩
  apply Gives.ite
  · intro _
    refine scalarType_gives.bind fun t ht => ?_
    refine (fieldPlace_gives hs ht).bind fun field hfield => ?_
    cases field with
    | some f => exact Gives.pure fun p hp => ⟨t, hfield p hp⟩
    | none => exact hvar
  · intro _
    exact hvar

/-- A place to assign to is of a proper type if the visible variables are. -/
theorem place?_gives (hs : env.Sound E) (hvars : ∀ v ∈ env.scope.visible, v.type.Proper) :
    Gives E (place? env : Draw ρ (Option Node)) fun p? =>
      ∀ p, p? = some p → ∃ t : Ty, Place env t p ∧ t.Proper := by
  refine (place?_place hs).mono fun p? hp p heq => ?_
  obtain ⟨t, hplace⟩ := hp p heq
  refine ⟨t, hplace, ?_⟩
  cases hplace with
  | var hv hty => exact hty ▸ hvars _ hv
  | field ht _ _ => exact ht.proper

/-! ## Types of switches -/

/-- The type of a switch is one of integers or strings, and its values can be written. -/
theorem tagType_gives (hc : env.config.ChancesIn E) (hE : E .outOfAttempts) :
    Gives E (Build.tagType env : Draw ρ Ty) fun t =>
      TagType t ∧ t.Within env.symbols.classNames := by
  have henum : ∀ {k : Scalar}, k = .int ∨ k = .string →
      Gives E (enumType env k : Draw ρ Ty) fun t =>
        TagType t ∧ t.Within env.symbols.classNames := by
    intro k hk
    have hk' : k = .int ∨ k = .float ∨ k = .string := by
      rcases hk with rfl | rfl
      · exact Or.inl rfl
      · exact Or.inr (Or.inr rfl)
    refine (enumType_gives hc hE hk').mono fun t ht => ?_
    obtain ⟨e, rfl, hkind, hlen, hall⟩ := ht
    refine ⟨.enum ?_ (fun l hl => (hall l hl).kind) ?_, .of_nil rfl ?_⟩
    · rw [hkind]
      exact hk
    · intro hnil
      simp [hnil] at hlen
    · exact .enum fun l hl => (hall l hl).writable
  -- A roll decides between integers, strings, and an enumeration of either.
  unfold Build.tagType
  refine (int_gives false (by decide)).bind fun roll _ => ?_
  split
  · exact Gives.pure ⟨.int, .of_nil rfl (.scalar _)⟩
  · exact Gives.pure ⟨.string, .of_nil rfl (.scalar _)⟩
  · exact henum (Or.inl rfl)
  · exact henum (Or.inr rfl)

/-! ## Kinds of statements -/

/-- A kind of statement that is drawn is a declaration or has a positive weight. -/
theorem stmtKind_gives (hE : E .outOfAttempts) (attempts room : Nat) (isNested : Bool) :
    Gives E (StmtKind.draw attempts room isNested : Draw ρ StmtKind) fun kind =>
      kind = .declaration ∨
        ∃ w, (kind, w) ∈ StmtKind.weights room isNested ∧ 0 < w := by
  unfold StmtKind.draw
  dsimp only
  refine (weighted_gives attempts _ hE).bind fun place hplace => ?_
  split
  · exact Gives.pure (Or.inl rfl)
  · rename_i i
    -- A kind of weight nothing is never drawn.
    obtain ⟨w, hw, hpos⟩ := hplace i rfl
    obtain ⟨choice, hchoice, rfl⟩ := List.getElem?_map.symm.trans hw |> Option.map_eq_some_iff.1
    refine Gives.bind_lift (a := choice) (by simp [elemAt, hchoice]) ?_
    exact Gives.pure (Or.inr ⟨choice.2, List.mem_of_getElem? hchoice, hpos⟩)

/-- A kind of statement that is drawn is one that can stand at this depth. -/
theorem stmtKind_allowed (hE : E .outOfAttempts) (attempts room : Nat) (isNested : Bool) :
    Gives E (StmtKind.draw attempts room isNested : Draw ρ StmtKind) fun kind =>
      (kind.nests = true → 0 < room) ∧ (kind = .returnJump → isNested = true) := by
  refine (stmtKind_gives hE attempts room isNested).mono fun kind h => ?_
  rcases h with rfl | ⟨w, hw, hpos⟩
  · exact ⟨nofun, nofun⟩
  · exact StmtKind.of_weight_pos hw hpos

end Draw

namespace Build

variable {ρ : Type} [WordSource ρ] {E : Fault → Prop} {env : Env} {budget : Nat} {t : Ty}

/-! ## First values -/

section FirstValues

variable (hs : env.Drawable (Ty.ValuedIn E) E)

include hs

/-- A call for the first value of a variable is one for an array. -/
theorem firstCall_draws (t : Ty) :
    Draws E env budget (firstCall t : Build ρ (Option Node)) fun call? =>
      ∀ n, call? = some n → Initial env budget t n ∧ ∃ elem, t = .array elem := by
  unfold firstCall
  split
  · rename_i elem
    refine (Draws.blind (Draw.percent_gives (by decide))).bind fun wants _ => ?_
    apply Draws.ite
    · intro _
      refine (callOfType_draws hs _).mono fun call? hcall n hn => ?_
      obtain ⟨f, hf, hty, hder⟩ := hcall n hn
      exact ⟨.call rfl hf hty hder, elem, rfl⟩
    · intro _
      exact .pure nofun
  · exact .pure nofun

/-- A cast over the first value of a variable is over a scalar value. -/
theorem firstCast_draws {x : Node} (hx : Initial env budget t x)
    (hscalar : ∀ k, t = .scalar k → Derives env budget (.value t) x) :
    Draws E env budget (firstCast t x : Build ρ Node) (Initial env budget t) := by
  unfold firstCast
  apply Draws.ite
  · intro hk
    refine (Draws.draw (hs.chances.chance_gives "p_decl_cast" (by simp [Config.chances]))).bind
      fun wants _ => ?_
    apply Draws.ite
    · intro _
      cases t with
      | scalar k => exact .pure (.cast rfl (hscalar k rfl))
      | _ => simp [Ty.scalarKind?] at hk
    · intro _
      exact .pure hx
  · intro _
    exact .pure hx

/-- The first value of a variable follows the grammar. -/
theorem firstValue_draws (ht : t.ValuedIn E) :
    Draws E env budget (firstValue t : Build ρ Node) (Initial env budget t) := by
  unfold firstValue
  refine (firstCall_draws hs t).bind fun call? hcall => ?_
  cases call? with
  | some c =>
      obtain ⟨hc, elem, rfl⟩ := hcall c rfl
      exact firstCast_draws hs hc nofun
  | none =>
      refine (value_draws hs ht).bind fun x hx => ?_
      exact firstCast_draws hs (.value hx) fun _ _ => hx

end FirstValues

/-! ## Assignments -/

variable (hs : env.Sound E)

include hs

theorem proper_draws (ht : t.Proper) :
    Draws E env budget (value t : Build ρ Node) (Derives env budget (.value t)) :=
  value_draws hs.valued ht.hasValues.valuedIn

/-- The value that is kept follows the grammar, however many are drawn. -/
theorem notPlace_draws (ht : t.Proper) (place : Node) :
    ∀ more, Draws E env budget (notPlace place t more : Build ρ Node)
      (Derives env budget (.value t))
  | 0 => proper_draws hs ht
  | more + 1 => by
      rw [notPlace]
      refine (proper_draws hs ht).bind fun x hx => ?_
      apply Draws.ite
      · intro _
        exact notPlace_draws ht place more
      · intro _
        exact .pure hx

/-- A plain assignment follows the grammar: after the last value that reads the place, a constant is
taken, if there are any. -/
theorem assignValue_draws (ht : t.Proper) (place : Node) :
    Draws E env budget (assignValue place t : Build ρ (List Node)) (Assigns env budget t place) := by
  refine (notPlace_draws hs ht place 3).bind fun x hx => ?_
  apply Draws.ite
  · intro _
    apply Draws.ite
    · intro hinit
      have hconstant : Draw.Gives E (Draw.constant env t : Draw ρ Node) (DrawnConstant t) :=
        Draw.constant_gives hs.chances hinit ht
      exact (Draws.draw (d := fun env => Draw.constant env t) hconstant).bind fun c hc =>
        .pure (.constant hc)
    · intro hinit
      exact .pure (.nothing (by simpa using hinit))
  · intro hreads
    exact .pure (.value (by simpa using hreads) hx)

/-- An assignment follows the grammar. -/
theorem assignTo_draws (ht : t.Proper) {place : Node} (hplace : Place env t place) :
    Draws E env budget (assignTo place : Build ρ (List Node)) (Assigns env budget t place) := by
  have hty : place.type.getD .mixed = t := by rw [hplace.type_eq]; rfl
  unfold assignTo
  dsimp only
  rw [hty]
  refine Draws.ite_bind (P := fun isCompound => isCompound = true → Draw.compoundOps t ≠ []) ?_ ?_ ?_
  · intro _
    exact .pure (by simp)
  · intro hops
    refine (Draws.blind (Draw.percent_gives (by decide))).mono fun b _ _ hnil => hops ?_
    rw [hnil]
    rfl
  · intro isCompound hcompound
    apply Draws.ite
    · intro h
      refine (proper_draws hs ht).bind fun x hx => ?_
      refine (Draws.blind (Draw.pick_gives fun hnil => absurd hnil (hcompound h))).bind
        fun op hop => ?_
      exact .pure (.compound hop hx)
    · intro _
      exact assignValue_draws hs ht place

/-! ## Output, calls and returns -/

/-- A dump follows the grammar. -/
theorem dump_draws (hE : E .outOfAttempts) :
    Draws E env budget (dump : Build ρ Node) (Dumps env budget) := by
  unfold dump
  refine (Draws.blind Draw.half_gives).bind fun wants _ => ?_
  refine .get_bind fun g henv _ => ?_
  have hscope : g.scope = env.scope := congrArg Env.scope henv
  rw [hscope]
  dsimp only
  split
  · have htype : Draw.Gives E (Draw.suchThat Ty.canDump (Draw.type env) env.attempts : Draw ρ Ty)
        fun t => t.canDump = true ∧ t.Storable ∧ t.Within env.symbols.classNames :=
      Draw.suchThat_gives (Draw.type_gives hs.chances hE) hE env.attempts
    refine (Draws.draw (d := fun env => Draw.suchThat Ty.canDump (Draw.type env) env.attempts)
      htype).bind fun t ht => ?_
    refine (proper_draws hs ht.2.1.proper).bind fun x hx => ?_
    exact .pure (.value ht.1 ht.2.2 hx)
  · rename_i candidates hne
    refine Draws.bind (P := fun x => ∃ v ∈ env.scope.visible, v.type.canDump = true ∧
      x = Env.varNode v) ?_ fun x hx => ?_
    · refine (Draws.blind (Draw.pick_gives fun h => absurd h hne)).map fun v hv => ?_
      cases wants with
      | false => simp at hv
      | true =>
          obtain ⟨hvis, hdump⟩ := List.mem_filter.1 hv
          exact ⟨v, hvis, hdump, rfl⟩
    · obtain ⟨v, hvis, hdump, rfl⟩ := hx
      exact .pure (.var hvis hdump)

theorem echo_draws :
    Draws E env budget (echo : Build ρ Node) fun n =>
      ∃ s, n = .ofArgs .echo [s, .textLit "\n"] ∧
        Derives env budget (.category (.value .string)) s :=
  (choose_draws hs.valued _).bind fun s hsd => .pure ⟨s, rfl, hsd⟩

/-- A call of a function without result, or a dump, follows the grammar. -/
theorem voidCall_draws (hE : E .outOfAttempts) :
    Draws E env budget (voidCall : Build ρ Node) fun n =>
      (∃ f ∈ env.symbols.funcs, f.result = .void ∧ Derives env budget (.call f) n) ∨
        Dumps env budget n := by
  unfold voidCall
  refine (callOfType_draws hs.valued .void).bind fun call? hcall => ?_
  split
  · rename_i c
    obtain ⟨f, hf, hty, hder⟩ := hcall c rfl
    exact .pure (Or.inl ⟨f, hf, Ty.identical_scalar_iff.1 hty, hder⟩)
  · exact (dump_draws hs hE).mono fun n hn => Or.inr hn

/-- A return follows the grammar. -/
theorem returnOf_draws {result : Ty} (hresult : result.isVoid = true ∨ result.Proper) :
    Draws E env budget (returnOf result : Build ρ Node) (Returns env budget result) := by
  unfold returnOf
  apply Draws.ite
  · intro hvoid
    exact .pure (.void hvoid)
  · intro hvoid
    have hproper : result.Proper := hresult.resolve_left hvoid
    refine (proper_draws hs hproper).bind fun x hx => ?_
    exact .pure (.value (by simpa using hvoid) hx)

end Build

end TypedPhp
