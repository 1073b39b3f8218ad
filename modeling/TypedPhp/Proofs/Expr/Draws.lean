import TypedPhp.Generate.Expr
import TypedPhp.Proofs.Expr.Grammar
import TypedPhp.Proofs.Runs.Building
import TypedPhp.Proofs.Scope.Frames
import TypedPhp.Proofs.SymbolTable.Reachable
import TypedPhp.Proofs.Ty.Proper

set_option autoImplicit false

/-!
# Expressions follow the grammar

In drawable surroundings every step that builds an expression draws one that the grammar derives
for its goal, within the budget that is left at its depth. The configuration decides alone which
faults it can end in: an expression never waits for a suitable sample, and look-ups in a frozen
table, uniform choices and members of classes never fail. The main results are `Build.choose_draws`,
by induction on the stack, and `Build.value_draws`.
-/

namespace TypedPhp

variable {E : Fault → Prop} {env : Env}

/-- A draw of a value of a type ends well: the type has values, or every fault is admitted. -/
def Ty.ValuedIn (E : Fault → Prop) (t : Ty) : Prop := t.HasValues ∨ ∀ f, E f

namespace Ty.ValuedIn

variable {t u : Ty} {ts : List Ty}

theorem elem (h : (Ty.array t).ValuedIn E) : t.ValuedIn E := by
  refine h.imp_left fun h => ?_
  cases h with
  | array h => exact h

theorem member (h : (Ty.tuple ts).ValuedIn E) (ht : t ∈ ts) : t.ValuedIn E := by
  refine h.imp_left fun h => ?_
  cases h with
  | tuple h => exact h t ht

theorem inner (h : (Ty.nullable t).ValuedIn E) : t.ValuedIn E := by
  refine h.imp_left fun h => ?_
  cases h with
  | nullable h => exact h

theorem left (h : (Ty.union t u).ValuedIn E) : t.ValuedIn E := by
  refine h.imp_left fun h => ?_
  cases h with
  | union h _ => exact h

theorem right (h : (Ty.union t u).ValuedIn E) : u.ValuedIn E := by
  refine h.imp_left fun h => ?_
  cases h with
  | union _ h => exact h

end Ty.ValuedIn

theorem Ty.HasValues.valuedIn {t : Ty} (h : t.HasValues) : t.ValuedIn E := .inl h

/-- Surroundings in which look-ups never fail: the table is frozen, its indexes refer to what it
holds, and the parameters of its functions are of types as `V` says. -/
structure Env.Drawable (V : Ty → Prop) (E : Fault → Prop) (env : Env) : Prop where
  chances : env.config.ChancesIn E
  consistent : env.symbols.Consistent
  frozen : env.symbols.isFrozen = true
  params : ∀ f ∈ env.symbols.funcs, ∀ p ∈ f.params, V p.type

/-- Surroundings in which the parameters of functions are of proper types. -/
abbrev Env.Sound (E : Fault → Prop) (env : Env) : Prop := env.Drawable Ty.Proper E

theorem Env.Drawable.mono {V W : Ty → Prop} (hs : env.Drawable V E) (hVW : ∀ t, V t → W t) :
    env.Drawable W E :=
  ⟨hs.chances, hs.consistent, hs.frozen, fun f hf p hp => hVW _ (hs.params f hf p hp)⟩

theorem Env.Drawable.valued (hs : env.Drawable Ty.HasValues E) : env.Drawable (Ty.ValuedIn E) E :=
  hs.mono fun _ ht => ht.valuedIn

theorem Env.Sound.valued (hs : env.Sound E) : env.Drawable (Ty.ValuedIn E) E :=
  hs.mono fun _ ht => ht.hasValues.valuedIn

/-- Results for every element of a list, each with a property. -/
theorem mapM_eq_ok {α β : Type} {f : α → Except Fault β} {P : β → Prop} :
    ∀ {as : List α}, (∀ a ∈ as, ∃ b, f a = .ok b ∧ P b) →
      ∃ bs, as.mapM f = .ok bs ∧ ∀ b ∈ bs, P b
  | [], _ => ⟨[], rfl, by simp⟩
  | a :: as, h => by
      obtain ⟨b, hb, hPb⟩ := h a List.mem_cons_self
      obtain ⟨bs, hbs, hPbs⟩ := mapM_eq_ok fun a' ha' => h a' (List.mem_cons_of_mem a ha')
      refine ⟨b :: bs, ?_, ?_⟩
      · rw [List.mapM_cons, hb, hbs]
        rfl
      · intro b' hb'
        rcases List.mem_cons.1 hb' with rfl | hb'
        · exact hPb
        · exact hPbs b' hb'

/-- A call needs at most as many arguments as there are parameters. -/
theorem Param.requiredCount_le : ∀ ps : List Param, Param.requiredCount ps ≤ ps.length
  | [] => Nat.le_refl 0
  | p :: ps => by
      have hps := Param.requiredCount_le ps
      rw [requiredCount]
      split
      · split <;> simp
      · rename_i n hn
        rw [List.length_cons]
        omega

/-- What is related to the first elements of a list, element by element. -/
theorem forall₂_take {α β : Type} {S : α → β → Prop} :
    ∀ {n : Nat} {as : List α} {bs : List β}, n ≤ as.length → List.Forall₂ S (as.take n) bs →
      bs.length = n ∧ ∀ a b, (a, b) ∈ as.zip bs → S a b
  | 0, _, _, _, h => by
      cases h
      simp
  | n + 1, [], _, hn, _ => absurd hn (by simp)
  | n + 1, a :: as, bs, hn, h => by
      rw [List.take_succ_cons] at h
      cases h with
      | cons hab hrest =>
          obtain ⟨hlen, hzip⟩ := forall₂_take (Nat.le_of_succ_le_succ hn) hrest
          refine ⟨by rw [List.length_cons, hlen], ?_⟩
          intro a' b' hmem
          rw [List.zip_cons_cons] at hmem
          rcases List.mem_cons.1 hmem with heq | hmem
          · cases heq
            exact hab
          · exact hzip a' b' hmem

/-- The fields of a type are fields of classes of the table. -/
theorem Env.Drawable.fieldsOf_eq_ok {V : Ty → Prop} (hs : env.Drawable V E) (t : Ty) :
    ∃ members, env.fieldsOf t = .ok members ∧
      ∀ m ∈ members,
        (∃ cls, env.symbols.classes[m.1.id]? = some cls ∧ cls.name = m.1.name ∧
          m.2 ∈ cls.fields) ∧ m.2.type.identical t = true := by
  obtain ⟨refs, hrefs, hall⟩ := hs.consistent.fieldsOf_eq_ok hs.frozen t
  rw [Env.fieldsOf, hrefs]
  apply mapM_eq_ok
  intro r hr
  obtain ⟨c, f, hc, hf, hty⟩ := hall r hr
  refine ⟨(⟨r.owner, c.name⟩, f), ?_, ⟨c, hc, rfl, List.mem_of_getElem? hf⟩, hty⟩
  rw [SymbolTable.fieldAt, SymbolTable.classRef, SymbolTable.classAt, elemAt, hc]
  simp [Bind.bind, Except.bind, elemAt, hf, Pure.pure, Except.pure]

theorem Env.varOf?_reads {t : Ty} {n : Node} (h : env.varOf? t = some n) : env.Reads t n := by
  obtain ⟨v, hv, rfl⟩ := Option.map_eq_some_iff.1 h
  obtain ⟨hvis, hty⟩ := Scope.findType?_spec hv
  exact ⟨v, hvis, hty, rfl⟩

namespace Build

variable {ρ : Type} [WordSource ρ] {budget : Nat}

/-! ## Variables, objects and fields -/

/-- A value is a variable of its type or fresh. -/
theorem reuse_draws {p : Double} {t : Ty} {fresh : Build ρ Node} {P : Node → Prop}
    (hp : Draw.Gives E (Draw.chance p : Draw ρ Bool) fun _ => True)
    (hvar : ∀ v, env.Reads t v → P v) (hfresh : Draws E env budget fresh P) :
    Draws E env budget (reuse p t fresh) P := by
  unfold reuse
  refine (Draws.blind hp).bind fun b _ => ?_
  apply Draws.ite
  · intro _
    refine .get_bind fun g henv _ => ?_
    rw [henv]
    split
    · rename_i v hv
      exact .pure (hvar v (Env.varOf?_reads hv))
    · exact hfresh
  · intro _
    exact hfresh

/-- An object of a class is received. -/
theorem receiver_draws (c : ClassRef) :
    Draws E env budget (receiver c : Build ρ Node) (Receives env c) := by
  unfold receiver
  refine .get_bind fun g henv _ => ?_
  rw [henv]
  apply Draws.ite
  · intro hc
    exact .pure (.this hc)
  · intro hc
    have hc : env.isCurrent c = false := by simpa using hc
    refine reuse_draws (Draw.percent_gives (by decide)) ?_ (.pure (.fresh hc))
    intro v hv
    exact .variable hc hv

/-- A field that is read is an accessible one, and there is one if the table holds any. -/
theorem fieldOf_draws {V : Ty → Prop} (hs : env.Drawable V E) (t : Ty) :
    Draws E env budget (fieldOf t : Build ρ (Option Node)) fun n? =>
      ∀ n, n? = some n → ReadsField env t n := by
  obtain ⟨members, hmembers, hall⟩ := hs.fieldsOf_eq_ok t
  unfold fieldOf
  refine .get_bind fun g henv _ => ?_
  rw [henv]
  refine .lift_bind hmembers ?_
  split
  · exact .pure (by simp)
  · rename_i candidates hne
    refine (Draws.blind (Draw.pick_gives fun h => absurd h hne)).bind fun m hm => ?_
    obtain ⟨hmem, husable⟩ := List.mem_filter.1 hm
    obtain ⟨hknown, hty⟩ := hall m hmem
    refine (receiver_draws m.1).bind fun object hobject => ?_
    exact .pure (forall_of_some (.of ⟨hknown, hty, by simpa using husable⟩ hobject))

/-! ## Values of a type -/

section Values

variable {stack : Nat} {choose : Chooser ρ}

/-- An array literal holds elements that are built one level deeper. -/
theorem arrayLit_draws {elem : Ty} {element : Build ρ Node} {P : Node → Prop}
    (h : Draws E env (budget - 1) element P) :
    Draws E env budget (arrayLit elem element) fun n =>
      ∃ elems, n = (Node.ofArgs .arrayLit elems).withType (.array elem) ∧ ∀ x ∈ elems, P x := by
  unfold arrayLit
  refine Draws.bind (P := fun elems => ∀ x ∈ elems, P x) ?_ fun elems helems =>
    .pure ⟨elems, rfl, helems⟩
  apply Draws.deeper
  refine .get_bind fun g _ _ => ?_
  refine (Draws.blind (Draw.range_gives (by split <;> omega))).bind fun n _ => ?_
  exact (h.times n).mono fun elems helems => helems.2

/-- A chooser follows the grammar wherever the stack holds what the budget allows. -/
def Faithful (E : Fault → Prop) (env : Env) (stack : Nat) (choose : Chooser ρ) : Prop :=
  ∀ budget, budget < stack → ∀ c, Draws E env budget (choose c) (Derives env budget (.category c))

/-- A scalar of any kind, or an array where that is permitted. -/
theorem mixed_draws (hch : Faithful E env stack choose) (hfits : budget < stack)
    (permitArray : Bool) :
    Draws E env budget (mixed choose permitArray) (Derives env budget (.mixed permitArray)) := by
  unfold mixed
  refine .get_bind fun g _ hbudget => ?_
  refine (Draws.blind (Draw.int_gives false (by split <;> decide))).bind fun roll hroll => ?_
  split
  · exact (hch budget hfits (.value .bool)).mono fun n hn => .mixedScalar hn
  · exact (hch budget hfits (.value .int)).mono fun n hn => .mixedScalar hn
  · exact (hch budget hfits (.value .float)).mono fun n hn => .mixedScalar hn
  · exact (hch budget hfits (.value .string)).mono fun n hn => .mixedScalar hn
  · rename_i h0 h1 h2 h3
    -- The roll goes beyond the four kinds only where an array is permitted.
    have hpermitted : permitArray = true ∧ g.exprDepth < g.config.maxExprDepth := by
      by_contra hnot
      rw [if_neg (by simpa using hnot)] at hroll
      have hsmall : roll = 0 ∨ roll = 1 ∨ roll = 2 ∨ roll = 3 := by omega
      rcases hsmall with h | h | h | h
      · exact h0 h
      · exact h1 h
      · exact h2 h
      · exact h3 h
    obtain ⟨rfl, hdepth⟩ := hpermitted
    have htwo : 2 ≤ budget := by
      rw [← hbudget, Generator.budget]
      omega
    refine (Draws.blind Draw.kind_gives).bind fun k _ => ?_
    refine (arrayLit_draws (hch (budget - 1) (by omega) (.value k))).mono fun n hn => ?_
    obtain ⟨elems, rfl, helems⟩ := hn
    exact .mixedArray htwo helems

/-- A value of a scalar kind, or of any kind, follows the grammar. -/
theorem scalar_draws (hch : Faithful E env stack choose) (hfits : budget < stack) {k : Scalar}
    (h : (Ty.scalar k).ValuedIn E) :
    Draws E env budget (valueIn choose (.scalar k)) (Derives env budget (.value (.scalar k))) := by
  cases k with
  | void =>
      rw [valueIn]
      refine .throw (h.elim (fun h => ?_) fun hE => hE _)
      cases h with
      | scalar hk => exact absurd rfl hk
  | bool =>
      rw [valueIn]
      exact (hch budget hfits (.value .bool)).mono fun n hn => .scalarValue hn
  | int =>
      rw [valueIn]
      exact (hch budget hfits (.value .int)).mono fun n hn => .scalarValue hn
  | float =>
      rw [valueIn]
      exact (hch budget hfits (.value .float)).mono fun n hn => .scalarValue hn
  | string =>
      rw [valueIn]
      exact (hch budget hfits (.value .string)).mono fun n hn => .scalarValue hn
  | mixed =>
      rw [valueIn]
      exact (mixed_draws hch hfits true).mono fun n hn => .mixedValue hn

/-- A value of a nullable type follows the grammar if one of the type in it does. -/
theorem nullable_draws {inner : Ty}
    (h : Draws E env budget (valueIn choose inner) (Derives env budget (.value inner))) :
    Draws E env budget (valueIn choose (.nullable inner))
      (Derives env budget (.value (.nullable inner))) := by
  have hfresh := h.mono fun n hn =>
    (Derives.innerValue hn : Derives env budget (.value (.nullable inner)) n)
  rw [valueIn]
  refine (Draws.blind (Draw.int_gives false (by decide))).bind fun roll _ => ?_
  apply Draws.ite
  · intro _
    exact .pure (.nullValue inner)
  · intro _
    apply Draws.ite
    · intro _
      refine .get_bind fun g henv _ => ?_
      rw [henv]
      split
      · rename_i v hv
        exact .pure (.reused rfl (Env.varOf?_reads hv))
      · exact hfresh
    · intro _
      exact hfresh

mutual

/-- A value of a type follows the grammar. -/
theorem valueIn_draws (hch : Faithful E env stack choose) :
    ∀ {t : Ty} {budget : Nat}, budget < stack → t.ValuedIn E →
      Draws E env budget (valueIn choose t) (Derives env budget (.value t))
  -- The cases are the forms of types. In the budget the recursion goes down for members of arrays
  -- and tuples only, so it is on the type.
  | .scalar k, budget, hfits, h => scalar_draws hch hfits h
  | .enum e, budget, hfits, h => by
      rw [valueIn]
      refine reuse_draws (Draw.percent_gives (by decide)) (fun v hv => .reused rfl hv) ?_
      have hpick : Draw.Gives E (Draw.pick e.values : Draw ρ Literal) (· ∈ e.values) := by
        refine Draw.pick_gives fun hnil => h.elim (fun h => ?_) fun hE => hE _
        -- The enum has a value, so the pool is not empty.
        cases h with
        | enum hne => exact absurd hnil hne
      exact (Draws.blind hpick).bind fun l hl => .pure (.enumValue hl)
  | .array elem, budget, hfits, h => by
      rw [valueIn]
      refine reuse_draws (Draw.percent_gives (by decide)) (fun v hv => .reused rfl hv) ?_
      have helem := valueIn_draws hch (Nat.lt_of_le_of_lt (Nat.sub_le budget 1) hfits) h.elem
      refine (arrayLit_draws helem).mono fun n hn => ?_
      obtain ⟨elems, rfl, helems⟩ := hn
      exact .arrayValue helems
  | .tuple elems, budget, hfits, h => by
      rw [valueIn]
      refine reuse_draws Draw.half_gives (fun v hv => .reused rfl hv) ?_
      have helems := valuesIn_draws hch (Nat.lt_of_le_of_lt (Nat.sub_le budget 1) hfits)
        fun t ht => h.member ht
      exact helems.deeper.bind fun args hargs => .pure (.tupleValue hargs.1 hargs.2)
  | .object c, budget, hfits, _ => by
      rw [valueIn]
      exact reuse_draws Draw.half_gives (fun v hv => .reused rfl hv) (.pure (.newValue c))
  | .nullable inner, budget, hfits, h => nullable_draws (valueIn_draws hch hfits h.inner)
  | .union x y, budget, hfits, h => by
      rw [valueIn]
      refine reuse_draws (Draw.percent_gives (by decide)) (fun v hv => .reused rfl hv) ?_
      refine (Draws.blind Draw.half_gives).bind fun b _ => ?_
      apply Draws.ite
      · intro _
        exact (valueIn_draws hch hfits h.left).mono fun n hn => .leftValue hn
      · intro _
        exact (valueIn_draws hch hfits h.right).mono fun n hn => .rightValue hn
  | .callable f, budget, hfits, h => by
      rw [valueIn]
      exact .throw (h.elim nofun fun hE => hE _)

/-- Values of several types follow the grammar. -/
theorem valuesIn_draws (hch : Faithful E env stack choose) :
    ∀ {ts : List Ty} {budget : Nat}, budget < stack → (∀ t ∈ ts, t.ValuedIn E) →
      Draws E env budget (valuesIn choose ts) fun xs =>
        ts.length = xs.length ∧ ∀ t x, (t, x) ∈ ts.zip xs → Derives env budget (.value t) x
  | [], budget, _, _ => by
      rw [valuesIn]
      exact .pure ⟨rfl, by simp⟩
  | t :: ts, budget, hfits, h => by
      rw [valuesIn]
      refine (valueIn_draws hch hfits (h t List.mem_cons_self)).bind fun x hx => ?_
      refine (valuesIn_draws hch hfits fun u hu => h u (List.mem_cons_of_mem t hu)).bind
        fun xs hxs => .pure ?_
      refine ⟨by simp [hxs.1], ?_⟩
      intro u y hy
      rw [List.zip_cons_cons] at hy
      rcases List.mem_cons.1 hy with heq | hy
      · cases heq
        exact hx
      · exact hxs.2 u y hy

end

/-! ## Calls -/

/-- An argument follows the grammar. -/
theorem argument_draws (hch : Faithful E env stack choose) (hfits : budget < stack) {p : Param}
    (hp : p.type.ValuedIn E) :
    Draws E env budget (argument choose p) (Derives env budget (.argument p)) := by
  unfold argument
  refine (valueIn_draws hch hfits hp).bind fun x hx => .pure ?_
  cases hcast : p.mustCast with
  | false => exact .plainArgument hcast hx
  | true => exact .strictArgument hcast hx

variable (hch : Faithful E env stack choose) (hfits : budget < stack)
  (hs : env.Drawable (Ty.ValuedIn E) E)

include hch hfits hs

/-- The arguments of a call follow the grammar, one level deeper: at least the required ones, at
most one for each parameter. -/
theorem arguments_draws {f : FuncType} (hf : f ∈ env.symbols.funcs) :
    Draws E env budget (do
      let n ← draw fun _ => Draw.range f.minArgs f.params.length
      Draw.each (argument choose) (f.params.take n) : Build ρ (List Node)) fun args =>
        f.minArgs ≤ args.length ∧ args.length ≤ f.params.length ∧
          ∀ p x, (p, x) ∈ f.params.zip args → Derives env budget (.argument p) x := by
  have hparams := hs.params f hf
  refine (Draws.blind (Draw.range_gives fun hlt => ?_)).bind fun n hn => ?_
  · exact absurd (Param.requiredCount_le f.params) (Nat.not_le.2 hlt)
  · have hargs : Draws E env budget (Draw.each (argument choose) (f.params.take n))
        (List.Forall₂ (fun p => Derives env budget (.argument p)) (f.params.take n)) :=
      .each fun p hp => argument_draws hch hfits (hparams p (List.mem_of_mem_take hp))
    refine hargs.mono fun args hargs => ?_
    obtain ⟨hlen, hzip⟩ := forall₂_take hn.2 hargs
    rw [hlen]
    exact ⟨hn.1, hn.2, hzip⟩

/-- A call of a function of the table follows the grammar. -/
theorem callIn_draws {id : Nat} {f : FuncType} (hf : env.symbols.funcs[id]? = some f) :
    Draws E env budget (callIn choose id) (Derives env budget (.call f)) := by
  have hfunc : env.symbols.funcAt id = .ok f := by simp [SymbolTable.funcAt, elemAt, hf]
  have hargs := arguments_draws hch (Nat.lt_of_le_of_lt (Nat.sub_le budget 1) hfits) hs
    (List.mem_of_getElem? hf)
  unfold callIn
  refine .get_bind fun g henv _ => ?_
  have hsymbols : g.symbols = env.symbols := congrArg Env.symbols henv
  rw [hsymbols]
  refine .lift_bind hfunc ?_
  refine hargs.deeper.bind fun args hargs => ?_
  obtain ⟨hmin, hmax, hzip⟩ := hargs
  -- A method needs an object before its arguments are used.
  cases howner : f.owner with
  | none => exact .pure (.functionCall howner hmin hmax hzip)
  | some c =>
      refine (receiver_draws c).bind fun object hobject => ?_
      exact .pure (.methodCall howner hobject hmin hmax hzip)

/-- A call with a result of exactly a type follows the grammar, and there is one if the table holds
any function of it. -/
theorem callOf_draws (t : Ty) :
    Draws E env budget (callOf choose t) fun n? => ∀ n, n? = some n →
      ∃ f ∈ env.symbols.funcs, f.result.identical t = true ∧ Derives env budget (.call f) n := by
  obtain ⟨ids, hids, hall⟩ := hs.consistent.funcsOf_eq_ok hs.frozen t
  unfold callOf
  refine .get_bind fun g henv _ => ?_
  have hsymbols : g.symbols = env.symbols := congrArg Env.symbols henv
  rw [hsymbols]
  refine .lift_bind hids ?_
  split
  · exact .pure (by simp)
  · rename_i hne
    refine (Draws.blind (Draw.pick_gives fun h => absurd h hne)).bind fun id hid => ?_
    obtain ⟨f, hf, hty⟩ := hall id hid
    refine (callIn_draws hch hfits hs hf).bind fun call hcall => ?_
    exact .pure (forall_of_some ⟨f, List.mem_of_getElem? hf, hty, hcall⟩)

end Values

end Build

end TypedPhp
