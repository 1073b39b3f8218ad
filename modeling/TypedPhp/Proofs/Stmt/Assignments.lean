import Mathlib.Data.List.Nodup
import TypedPhp.Proofs.Expr.Source
import TypedPhp.Proofs.Names
import TypedPhp.Proofs.Scope.Stack
import TypedPhp.Proofs.Stmt.Draws
import TypedPhp.Proofs.Stmt.Linked

set_option autoImplicit false

/-!
# Assignments copy no place into itself

A value that is drawn for an assignment is drawn again while it is the place itself in parentheses,
and after four such values a constant is taken, if there is one. The test compares trees with their
static types, but what counts is the text: a value whose tree differs from the place in static types
only would be a copy all the same. No such value is drawn, as all variables that an expression reads
are visible or the current object, and these are told apart by their names
(`Place.readsPlace_iff`). Where there is no place, a variable is declared whose first value does not
read it. The result is `Build.assignment_moves`.
-/

namespace TypedPhp

namespace Node

/-! ## Trees without parentheses around them and without static types -/

/-- The node inside all parentheses around it. -/
def unwrapped : Node → Node
  | mk op args payload type =>
    match op, args with
    | .parens, x :: _ => x.unwrapped
    | _, _ => mk op args payload type

mutual

/-- The tree without static types: operators, payloads and children. -/
def untyped : Node → Node
  | mk op args payload _ => mk op (untypedEach args) payload none

/-- Several trees without static types. -/
def untypedEach : List Node → List Node
  | [] => []
  | n :: ns => n.untyped :: untypedEach ns

end

/-- A variable of this name is read somewhere in the tree. -/
def Mentions (n : Node) (name : String) : Prop :=
  ∃ m ∈ n.subterms, m.op = .var ∧ m.ident? = some name

variable {n m x : Node} {P : Node → Prop}

/-- The node inside parentheses stands in the tree. -/
theorem unwrapped_mem_subterms : ∀ n : Node, n.unwrapped ∈ n.subterms
  | mk op args payload type => by
      unfold unwrapped
      split
      · rename_i x rest
        exact mem_subterms_of_args List.mem_cons_self (unwrapped_mem_subterms x)
      · exact self_mem_subterms _

theorem Every.of_unwrapped (h : n.Every P) (hx : x ∈ n.unwrapped.args) : P x :=
  h x (mem_subterms_trans (unwrapped_mem_subterms n)
    (mem_subterms_of_args hx (self_mem_subterms x)))

/-- Trees agree without static types if their operators, payloads and children do. -/
theorem untyped_eq_iff : n.untyped = m.untyped ↔
    n.op = m.op ∧ untypedEach n.args = untypedEach m.args ∧ n.payload = m.payload := by
  obtain ⟨op, args, payload, type⟩ := n
  obtain ⟨op', args', payload', type'⟩ := m
  simp [untyped, Node.op, Node.args, Node.payload]

theorem untypedEach_eq_nil_iff {ns : List Node} : untypedEach ns = [] ↔ ns = [] := by
  cases ns <;> simp [untypedEach]

/-- Children that agree with one without static types are one that does. -/
theorem untypedEach_eq_singleton_iff {ns : List Node} :
    untypedEach ns = untypedEach [m] ↔ ∃ y, ns = [y] ∧ y.untyped = m.untyped := by
  match ns with
  | [] => simp [untypedEach]
  | [y] => simp [untypedEach]
  | y :: z :: ns => simp [untypedEach]

/-- What reads a place is compared with it inside the parentheses around it. -/
theorem readsPlace_eq (place : Node) : ∀ x : Node, x.readsPlace place =
    (x.unwrapped.op == place.op && eqvPayload x.unwrapped.payload place.payload &&
      eqvList x.unwrapped.args place.args)
  | mk op args payload type => by
      unfold unwrapped
      split
      · rename_i x rest
        rw [readsPlace]
        exact readsPlace_eq place x
      · rename_i hparens
        rw [readsPlace]
        · rfl
        · exact hparens

/-- Payloads that are names are compared as such. -/
theorem eqvPayload_ident_iff {p : Option Payload} {s : String} :
    eqvPayload p (some (.ident s)) = true ↔ p = some (.ident s) := by
  cases p with
  | none => simp [eqvPayload]
  | some p => cases p <;> simp [eqvPayload, Payload.eqv]

theorem eqvList_nil_iff {ns : List Node} : eqvList ns [] = true ↔ ns = [] := by
  cases ns <;> simp [eqvList]

/-- Children are compared with one as one. -/
theorem eqvList_singleton_iff {ns : List Node} :
    eqvList ns [m] = true ↔ ∃ y, ns = [y] ∧ y.eqv m = true := by
  match ns with
  | [] => simp [eqvList]
  | [y] => simp [eqvList]
  | y :: z :: ns => simp [eqvList]

theorem eqvType_object_iff {t : Option Ty} {c : ClassRef} :
    eqvType t (some (.object c)) = true ↔ t = some (.object c) := by
  cases t with
  | none => simp [eqvType]
  | some t => cases t <;> simp [eqvType, Ty.eqv]

/-- Only the same variable, with its class, is equal to one that holds an object. -/
theorem eqv_objectVar_iff {s : String} {c : ClassRef} :
    n.eqv (.var s (.object c)) = true ↔ n = .var s (.object c) := by
  obtain ⟨op, args, payload, type⟩ := n
  simp only [var, eqv, Bool.and_eq_true, beq_iff_eq, eqvList_nil_iff, eqvPayload_ident_iff,
    eqvType_object_iff, mk.injEq, and_assoc]

end Node

/-! ## Variables that are read -/

/-- A stored variable is bound under its name. -/
theorem Scope.findName?_isSome {s : Scope} {v : ScopeVar} (hv : v ∈ s.vars) :
    (s.findName? v.name).isSome = true := by
  have hfind : s.findName? v.name = s.vars.find? (·.name == v.name) :=
    (congrArg Prod.snd (searchFrom_eq _ [] s.vars)).trans (find?_unhidden s.vars List.not_mem_nil)
  rw [hfind, List.find?_isSome]
  exact ⟨v, hv, beq_self_eq_true _⟩

variable {env : Env} {n x place : Node} {t : Ty} {b : Nat}

/-- A node that reads a variable reads a known one. -/
def Node.ReadsKnown (env : Env) (n : Node) : Prop :=
  ∀ s, n.op = .var → n.ident? = some s → ∃ v, env.Known v ∧ v.name = s ∧ n = Env.varNode v

/-- To read known variables only is admitted, whatever classes are named. -/
theorem Node.ReadsKnown.admitted : env.AdmitsOver (fun _ => True) (Node.ReadsKnown env) where
  plain := by
    intro n hn s _ hs
    rw [hn.2] at hs
    cases hs
  var := by
    intro v hv s _ hs
    exact ⟨v, hv, Option.some.inj hs, rfl⟩
  helper := fun _ _ _ hop => nomatch hop
  function := fun _ _ _ hop => nomatch hop
  new := fun _ _ _ _ hop => nomatch hop
  linked := by
    intro n hop _ s hvar
    rw [hvar] at hop
    cases hop

theorem Derives.readsKnown (h : Derives env b (.value t) n) : n.Every (Node.ReadsKnown env) :=
  h.every_over env.symbols.refersTo_any Node.ReadsKnown.admitted fun _ _ => trivial

theorem Initial.readsKnown (h : Initial env b t n) : n.Every (Node.ReadsKnown env) :=
  h.every_over env.symbols.refersTo_any Node.ReadsKnown.admitted fun _ _ => trivial

/-- Known variables are told apart by their names, if none of those in scope is named like the
current object. -/
theorem Env.Known.eq_of_name (hthis : ∀ v ∈ env.scope.vars, v.name ≠ "this") {v w : ScopeVar}
    (hv : env.Known v) (hw : env.Known w) (hname : v.name = w.name) : v = w := by
  have hvisible : ∀ v ∈ env.scope.visible, v.name ≠ "this" :=
    fun v hv => hthis v (Scope.mem_vars_of_mem_visible hv)
  rcases hv with hv | ⟨c, hc, rfl⟩
  · rcases hw with hw | ⟨d, -, rfl⟩
    · exact List.inj_on_of_nodup_map (Scope.unhidden_names_nodup [] env.scope.vars) hv hw hname
    · exact absurd hname (hvisible v hv)
  · rcases hw with hw | ⟨d, hd, rfl⟩
    · exact absurd hname.symm (hvisible w hw)
    · rw [Option.some.inj (hc.symm.trans hd)]

/-- The object of a field that is assigned is a known variable that holds an object. -/
theorem Env.Holds.exists_var {c : ClassRef} {object : Node} (h : env.Holds c object) :
    ∃ s d, env.Known ⟨s, .object d⟩ ∧ object = .var s (.object d) := by
  rcases h with ⟨hc, rfl⟩ | ⟨-, v, hv, hty, rfl⟩
  · exact ⟨"this", c, Env.known_this hc, rfl⟩
  · obtain ⟨name, type⟩ := v
    cases type with
    | object d => exact ⟨name, d, Or.inl hv, rfl⟩
    | _ => simp [Ty.identical] at hty

/-- A value reads a place exactly if it is the place in parentheses, static types aside. -/
theorem Place.readsPlace_iff (hplace : Place env t place)
    (hthis : ∀ v ∈ env.scope.vars, v.name ≠ "this") (hx : x.Every (Node.ReadsKnown env)) :
    x.readsPlace place = true ↔ x.unwrapped.untyped = place.untyped := by
  rw [Node.readsPlace_eq, Node.untyped_eq_iff, Bool.and_eq_true, Bool.and_eq_true, beq_iff_eq,
    and_assoc, and_congr_right_iff, and_comm]
  intro _
  apply and_congr
  · cases hplace with
    | var _ _ => exact Node.eqvList_nil_iff.trans Node.untypedEach_eq_nil_iff.symm
    | @field c f object _ _ hobject =>
        obtain ⟨s, d, hknown, rfl⟩ := hobject.exists_var
        refine Node.eqvList_singleton_iff.trans ?_
        refine Iff.trans ?_ Node.untypedEach_eq_singleton_iff.symm
        refine exists_congr fun y => and_congr_right fun hy => ?_
        -- Both sides say that the child is this variable, as no other known one has its name.
        rw [Node.eqv_objectVar_iff]
        constructor
        · rintro rfl
          rfl
        · intro heq
          obtain ⟨hop, -, hpayload⟩ := Node.untyped_eq_iff.1 heq
          have hmem : y ∈ x.unwrapped.args := by
            rw [hy]
            exact List.mem_cons_self
          have hident : y.ident? = some s := by
            rw [Node.ident?, hpayload]
            rfl
          obtain ⟨v, hv, hname, rfl⟩ := hx.of_unwrapped hmem s hop hident
          obtain rfl := Env.Known.eq_of_name hthis hv hknown hname
          rfl
  · cases hplace with
    | var _ _ => exact Node.eqvPayload_ident_iff
    | field _ _ _ => exact Node.eqvPayload_ident_iff

/-- A constant is no place, in parentheses or not. -/
theorem ConstantOf.unwrapped_ne (h : ConstantOf t x) {u : Ty} (hplace : Place env u place) :
    x.unwrapped.untyped ≠ place.untyped := by
  -- A place is a variable or a field, and no constant has such a node at its root.
  have hop : place.op = .var ∨ place.op = .prop := by
    cases hplace with
    | var _ _ => exact Or.inl rfl
    | field _ _ _ => exact Or.inr rfl
  have hne : ∀ {op args payload type}, op ≠ .parens → op ≠ .var → op ≠ .prop →
      (Node.mk op args payload type).unwrapped.untyped ≠ place.untyped := by
    intro op args payload type hparens hvar hprop heq
    rw [Node.unwrapped] at heq
    · obtain ⟨rfl, -⟩ := Node.untyped_eq_iff.1 heq
      exact hop.elim hvar hprop
    · exact fun _ _ h => absurd h hparens
  have hlit : ∀ l, (Node.lit l).unwrapped.untyped ≠ place.untyped := by
    intro l
    cases l <;> exact hne nofun nofun nofun
  induction h with
  | literal _ => exact hlit _
  | mixed _ => exact hlit _
  | enum _ => exact hlit _
  | array _ _ _ => exact hne nofun nofun nofun
  | null t => exact hne nofun nofun nofun
  | inner _ ih => exact ih
  | left _ ih => exact ih
  | right _ ih => exact ih

/-! ## Outcomes -/

section Outcomes

variable {ρ : Type} [WordSource ρ]

/-- What an assignment to a place of a type appends, from a state to the next: a compound
assignment, an assignment of a value that is not the place, or nothing. It appends nothing only if
the type has no constants and the next four values are the place. -/
inductive Moves (t : Ty) (place : Node) (g g' : Generator ρ) : List Node → Prop where
  | compound {op : Op} (x : Node) : op ∈ Draw.compoundOps t →
      Moves t place g g' [.assignModify op place x]
  | value {x : Node} : x.unwrapped.untyped ≠ place.untyped → Moves t place g g' [.assign place x]
  | nothing {xs : List Node} : t.isConstInitializable = false →
      Draw.times (Build.value t) 4 g = .ok (xs, g') →
      (∀ x ∈ xs, x.unwrapped.untyped = place.untyped) → Moves t place g g' []

theorem Moves.length_le {g g' : Generator ρ} {ns : List Node} (h : Moves t place g g' ns) :
    ns.length ≤ 1 := by
  cases h with
  | compound _ _ | value _ => exact Nat.le_refl 1
  | nothing _ _ _ => exact Nat.zero_le 1

/-- In surroundings with a frozen table whose indexes refer to what it holds, draws end well if
every fault is admitted. -/
theorem Env.drawable_any (hconsistent : env.symbols.Consistent)
    (hfrozen : env.symbols.isFrozen = true) :
    env.Drawable (Ty.ValuedIn fun _ => True) fun _ => True :=
  ⟨fun _ _ _ => trivial, hconsistent, hfrozen, fun _ _ _ _ => Or.inr fun _ => trivial⟩

namespace Draw

theorem isConstInitializable_of_compoundOps (h : compoundOps t ≠ []) :
    t.isConstInitializable = true := by
  cases t with
  | scalar k => cases k <;> first | rfl | exact absurd rfl h
  | _ => exact absurd rfl h

/-- There is no variable to assign to only if none is visible. -/
theorem varPlace_none : Gives (fun _ => True) (varPlace env : Draw ρ (Option Node)) fun p? =>
    p? = none → env.scope.visible = [] := by
  -- The drawn variable is stored, so it is found by its name.
  have hfound : ∀ v? : Option ScopeVar,
      (∀ v, v? = some v → v ∈ env.scope.vars) ∧ (v? = none → env.scope.visible = []) →
      Gives (fun _ => True)
        (Pure.pure (v?.bind fun v => (env.scope.findName? v.name).map Env.varNode) :
          Draw ρ (Option Node)) fun p? => p? = none → env.scope.visible = [] := by
    rintro v? ⟨hstored, hnone⟩
    apply Gives.pure
    cases v? with
    | none => exact fun _ => hnone rfl
    | some v =>
        intro h
        have hv := Scope.findName?_isSome (hstored v rfl)
        rw [Option.map_eq_none_iff.1 h] at hv
        cases hv
  have hpick : ∀ vs : List ScopeVar, vs ⊆ env.scope.vars →
      Gives (fun _ => True) (some <$> pick vs : Draw ρ (Option ScopeVar)) fun v? =>
        (∀ v, v? = some v → v ∈ env.scope.vars) ∧ (v? = none → env.scope.visible = []) :=
    fun vs hvs => (pick_gives fun _ => trivial).map fun v hv => ⟨forall_of_some (hvs hv), nofun⟩
  have hcurrent : env.scope.current ⊆ env.scope.vars :=
    fun v hv => List.mem_of_mem_take (List.mem_reverse.1 hv)
  unfold varPlace
  dsimp only
  refine Gives.ite_bind (P := fun _ => True) (fun _ => Gives.pure trivial) (fun _ => Gives.any _)
    fun isLocal _ => ?_
  apply Gives.ite
  · intro _
    exact (hpick _ hcurrent).bind hfound
  · intro _
    refine Gives.ite_bind (fun hempty => ?_) (fun _ => ?_) hfound
    · exact Gives.pure ⟨nofun, fun _ => List.isEmpty_iff.1 hempty⟩
    · exact hpick _ fun v hv => Scope.mem_vars_of_mem_visible hv

/-- There is no place only if no variable is visible. -/
theorem place?_none : Gives (fun _ => True) (place? env : Draw ρ (Option Node)) fun p? =>
    p? = none → env.scope.visible = [] := by
  unfold place?
  refine (Gives.any _).bind fun b _ => ?_
  apply Gives.ite
  · intro _
    refine (Gives.any _).bind fun t _ => ?_
    refine (Gives.any _).bind fun field _ => ?_
    cases field with
    | some f => exact Gives.pure nofun
    | none => exact varPlace_none
  · intro _
    exact varPlace_none

end Draw

namespace Build

variable {budget : Nat} {g : Generator ρ}

/-- A value that reads the place is the last of as many as may be drawn, and all of them do. -/
theorem notPlace_runs {P : Node → Prop}
    (hvalue : Draws (fun _ => True) env budget (value t : Build ρ Node) P) :
    ∀ more (g : Generator ρ), g.env = env → g.budget = budget →
      Runs (fun _ => True) (notPlace place t more) g fun x g' => P x ∧
        (x.readsPlace place = true → ∃ xs, Draw.times (value t) (more + 1) g = .ok (xs, g') ∧
          ∀ y ∈ xs, P y ∧ y.readsPlace place = true)
  | 0, g, henv, hbudget => by
      refine ⟨fun {x g'} hrun => ?_, fun _ => trivial⟩
      have hx : P x := ((hvalue.runs g henv hbudget).of_ok hrun).1
      exact ⟨hx, fun hreads => ⟨[x], Draw.times_succ_of_ok hrun rfl, by simp [hx, hreads]⟩⟩
  | more + 1, g, henv, hbudget => by
      have hfirst : Runs (fun _ => True) (value t : Build ρ Node) g fun x g' =>
          value t g = .ok (x, g') ∧ P x ∧ g.OnlySource g' :=
        ⟨fun hrun => ⟨hrun, (hvalue.runs g henv hbudget).of_ok hrun⟩, fun _ => trivial⟩
      rw [notPlace]
      refine Runs.bind (hfirst.mono fun x g₁ hx => ?_)
      obtain ⟨hrun, hP, hsource⟩ := hx
      split
      · rename_i hreads
        have hrest := notPlace_runs hvalue more g₁ (hsource.env_eq.trans henv)
          (hsource.budget_eq.trans hbudget)
        refine hrest.mono fun y g' hy => ⟨hy.1, fun hlast => ?_⟩
        obtain ⟨xs, hxs, hall⟩ := hy.2 hlast
        exact ⟨x :: xs, Draw.times_succ_of_ok hrun hxs, List.forall_mem_cons.2 ⟨⟨hP, hreads⟩, hall⟩⟩
      · rename_i hreads
        exact Runs.pure ⟨hP, fun h => absurd h hreads⟩

theorem value_readsKnown (hs : env.Drawable (Ty.ValuedIn fun _ => True) fun _ => True) :
    Draws (fun _ => True) env budget (value t : Build ρ Node) (Node.Every (Node.ReadsKnown env)) :=
  (value_draws hs (Or.inr fun _ => trivial)).mono fun _ hx => hx.readsKnown

section Places

variable (hs : g.env.Drawable (Ty.ValuedIn fun _ => True) fun _ => True)
  (hthis : ∀ v ∈ g.scope.vars, v.name ≠ "this") (hplace : Place g.env t place)

include hs hthis hplace

/-- A plain assignment moves a value that reads nothing of the place, or a constant, or nothing. No
chance has been drawn where there are no constants, so the values are drawn from the first state
then. -/
theorem assignValue_runs {g₁ : Generator ρ} (hsource : g.OnlySource g₁)
    (hfirst : t.isConstInitializable = false → g₁ = g) :
    Runs (fun _ => True) (assignValue place t) g₁ fun ns g' => Moves t place g g' ns := by
  have hvalue : Draws (fun _ => True) g.env g.budget (value t : Build ρ Node)
      (Node.Every (Node.ReadsKnown g.env)) := value_readsKnown hs
  refine Runs.bind ((notPlace_runs hvalue 3 g₁ hsource.env_eq hsource.budget_eq).mono
    fun x g₂ hx => ?_)
  split
  · rename_i hreads
    split
    · have hconstant : Draw.Gives (fun _ => True) (Draw.constant g₂.env t : Draw ρ Node)
          (DrawnConstant t) :=
        Draw.constant_gives_admitting (fun _ => trivial) (fun _ _ => trivial) fun _ _ _ => trivial
      refine Runs.bind (draw_runs hconstant fun c source hc => ?_)
      exact Runs.pure (.value (hc.constant.unwrapped_ne hplace))
    -- All values drawn read the place, and there is no constant to fall back to.
    · rename_i hinit
      have hinit : t.isConstInitializable = false := by simpa using hinit
      obtain rfl := hfirst hinit
      obtain ⟨xs, hxs, hall⟩ := hx.2 hreads
      refine Runs.pure (.nothing hinit hxs fun y hy => ?_)
      exact (hplace.readsPlace_iff hthis (hall y hy).1).1 (hall y hy).2
  · rename_i hreads
    exact Runs.pure (.value fun heq => hreads ((hplace.readsPlace_iff hthis hx.1).2 heq))

/-- An assignment moves something into the place, or nothing. -/
theorem assignTo_runs : Runs (fun _ => True) (assignTo place) g fun ns g' => Moves t place g g' ns := by
  have hty : place.type.getD .mixed = t := by rw [hplace.type_eq]; rfl
  unfold assignTo
  dsimp only
  rw [hty]
  split
  · refine Runs.bind (Runs.pure ?_)
    exact assignValue_runs hs hthis hplace (.refl g) fun _ => rfl
  · rename_i hops
    have hops : Draw.compoundOps t ≠ [] := by simpa using hops
    refine Runs.bind (draw_runs_any fun isCompound s₁ => ?_)
    split
    · refine Runs.bind (((SourceOnly.value t).runs _).mono fun x g₂ _ => ?_)
      refine Runs.bind (draw_runs (Draw.pick_gives fun _ => trivial) fun op s₃ hop => ?_)
      exact Runs.pure (.compound x hop)
    · refine assignValue_runs hs hthis hplace ⟨s₁, rfl⟩ fun hinit => ?_
      rw [Draw.isConstInitializable_of_compoundOps hops] at hinit
      cases hinit

end Places

/-- A variable is declared without reading it, where no variable is visible. -/
theorem declaration_runs (hs : g.env.Drawable (Ty.ValuedIn fun _ => True) fun _ => True)
    (hvisible : g.scope.visible = []) :
    Runs (fun _ => True) declaration g fun ns _ => ∃ t x,
      ns = [.assign (.var ("v" ++ toString g.nextVar) t) x] ∧
        ¬ x.Mentions ("v" ++ toString g.nextVar) := by
  unfold declaration
  refine Runs.bind (draw_runs_any fun t source => ?_)
  unfold declare
  refine Runs.bind (freshVar_runs ?_)
  have hs' : ({ g with source, nextVar := g.nextVar + 1 } : Generator ρ).env.Drawable
      (Ty.ValuedIn fun _ => True) fun _ => True := hs
  refine Runs.bind (Draws.from_state (firstValue_draws hs' (Or.inr fun _ => trivial))
    fun x source hx => ?_)
  refine Runs.bind (modifyScope_runs_any fun s _ => Runs.pure ⟨t, x, rfl, ?_⟩)
  rintro ⟨m, hm, hop, hname⟩
  obtain ⟨v, hv, heq, -⟩ := hx.readsKnown m hm _ hop hname
  rcases hv with hv | ⟨c, -, rfl⟩
  · change v ∈ g.scope.visible at hv
    rw [hvisible] at hv
    cases hv
  · exact var_ne_this _ heq.symm

/-- An assignment never copies its place into itself. It appends at most one statement. Where
there is a place to assign to, that is a compound assignment, or a value that is not the place even
inside parentheses and without static types; nothing is appended only if there are no constants and
four values in a row are the place. Where there is none, a variable is declared that its first value
does not read. -/
theorem assignment_moves (g g' : Generator ρ) {ns : List Node} (hreach : g.symbols.Reachable)
    (hfrozen : g.symbols.isFrozen = true) (hthis : ∀ v ∈ g.scope.vars, v.name ≠ "this")
    (h : assignment g = .ok (ns, g')) :
    ns.length ≤ 1 ∧ ∃ p? source, Draw.place? g.env g.source = .ok (p?, source) ∧
      (∀ place, p? = some place → ∃ t, Place g.env t place ∧
        Moves t place { g with source } g' ns) ∧
      (p? = none → ∃ t x, ns = [.assign (.var ("v" ++ toString g.nextVar) t) x] ∧
        ¬ x.Mentions ("v" ++ toString g.nextVar)) := by
  have hs : g.env.Drawable (Ty.ValuedIn fun _ => True) fun _ => True :=
    Env.drawable_any hreach.consistent hfrozen
  unfold assignment at h
  obtain ⟨p?, g₁, hplace, hrest⟩ := Runs.ok_of_bind h
  obtain ⟨s, hrun, rfl⟩ := draw_eq_ok hplace
  cases p? with
  | none =>
      have hvisible : g.scope.visible = [] := (Draw.place?_none.runs g.source).of_ok hrun rfl
      have hdecl := (declaration_runs (g := { g with source := s }) hs hvisible).of_ok hrest
      refine ⟨?_, none, s, hrun, nofun, fun _ => hdecl⟩
      obtain ⟨t, x, rfl, -⟩ := hdecl
      exact Nat.le_refl 1
  | some place =>
      obtain ⟨t, ht⟩ := ((Draw.place?_place hs).runs g.source).of_ok hrun place rfl
      have hmoves := (assignTo_runs (g := { g with source := s }) hs hthis ht).of_ok hrest
      refine ⟨hmoves.length_le, some place, s, hrun, ?_, nofun⟩
      rintro _ ⟨⟩
      exact ⟨t, ht, hmoves⟩

/-- The only variable holds an object and is drawn four times as its own value: nothing is
assigned. -/
theorem assignment_moves_nothing :
    let g : Generator Scripted.Stream := { Generator.bare 0 with
      scope := ⟨[⟨"v0", .object ⟨0, "C0"⟩⟩], [1]⟩
      source := ⟨List.replicate 8 0, 0⟩ }
    ∃ g', assignment g = .ok ([], g') ∧ ∃ place t xs source, Place g.env t place ∧
      t.isConstInitializable = false ∧
      Draw.times (value t) 4 { g with source } = .ok (xs, g') ∧
      ∀ x ∈ xs, x.unwrapped.untyped = place.untyped := by
  intro g
  have hany : (assignment g).toOption.any (fun r => r.1.isEmpty) = true := by
    decide +kernel
  obtain ⟨ns, g', hrun, hempty⟩ := Runs.exists_of_check hany
  obtain rfl := List.isEmpty_iff.1 hempty
  refine ⟨g', hrun, ?_⟩
  have hfreeze : SymbolTable.empty.freeze = .ok g.symbols := by
    simp [SymbolTable.freeze, SymbolTable.empty, TypeIndex.freeze, TypeIndex.empty, g,
      Generator.bare]
  have hreach : g.symbols.Reachable := .freeze .empty hfreeze
  obtain ⟨-, p?, s, -, hsome, hnone⟩ :=
    assignment_moves g g' hreach rfl (List.forall_mem_singleton.2 (by decide)) hrun
  cases p? with
  | none =>
      obtain ⟨t, x, heq, -⟩ := hnone rfl
      cases heq
  | some place =>
      obtain ⟨t, hplace, hmoves⟩ := hsome place rfl
      cases hmoves with
      | nothing hinit hxs hall => exact ⟨place, t, _, s, hplace, hinit, hxs, hall⟩

end Build

end Outcomes

end TypedPhp
