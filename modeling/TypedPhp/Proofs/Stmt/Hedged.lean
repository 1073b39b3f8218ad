import TypedPhp.Proofs.Expr.Hedged
import TypedPhp.Proofs.Stmt.Formed

set_option autoImplicit false

/-!
# Hedged operators in statements

A statement evaluates calm expressions only and needs no hedge itself. Compound assignments have
none of the operators that may fail, and no tag or label of a switch is a float. A statement list in
which every site is of this kind consists of calm statements (`Sited.calm`).
-/

namespace TypedPhp

namespace Node

variable {n s x : Node} {op : Op}

/-- A compound assignment is hedged if its operator neither fails nor leaves the integers. -/
theorem Hedged.of_assignModify (hop : n.op = .assignModify)
    (hmodifies : ∀ op ∈ Op.riskyAssignments, n.payload ≠ some (.op op))
    (h : ∀ x ∈ n.args, n.Hedges x) : n.Hedged := by
  have hne : ∀ op : Op, op ≠ .assignModify → n.op ≠ op := by
    rintro op hne rfl
    exact hne hop
  refine ⟨⟨hne _ nofun, hne _ nofun⟩, fun _ => hmodifies, ?_, ?_, ?_, h⟩
  · intro hshift
    rcases List.mem_cons.1 hshift with heq | hshift
    · exact absurd heq (hne _ nofun)
    · exact absurd (List.mem_singleton.1 hshift) (hne _ nofun)
  · rintro (heq | heq | heq | heq) <;> exact absurd heq (hne _ nofun)
  · rintro (heq | heq) <;> exact absurd heq (hne _ nofun)

/-- A switch or a case is hedged if its tag or its label is no float. -/
theorem Hedged.of_tag (hop : n.op = .switch ∨ n.op = .case)
    (htag : ∀ x, n.args.head? = some x → ∀ vars, ¬ Fits vars .float x)
    (h : ∀ x ∈ n.args, n.Hedges x) : n.Hedged := by
  have hne : ∀ op : Op, op ≠ .switch → op ≠ .case → n.op ≠ op := by
    rintro op hswitch hcase rfl
    exact hop.elim hswitch hcase
  refine ⟨⟨hne _ nofun nofun, hne _ nofun nofun⟩, fun heq => absurd heq (hne _ nofun nofun), ?_, ?_,
    fun _ => htag, h⟩
  · intro hshift
    rcases List.mem_cons.1 hshift with heq | hshift
    · exact absurd heq (hne _ nofun nofun)
    · exact absurd (List.mem_singleton.1 hshift) (hne _ nofun nofun)
  · rintro (heq | heq | heq | heq) <;> exact absurd heq (hne _ nofun nofun)

/-- A statement is calm at its site: it needs no hedge, it is hedged if it may have its children,
and what it evaluates or assigns is calm. -/
structure CalmAt (s : Node) : Prop where
  settled : s.Settled
  hedged : (∀ x ∈ s.args, s.Hedges x) → s.Hedged
  uses : ∀ x ∈ s.uses, x.Calm
  assigned : s.op = .assign → ∀ x ∈ s.args, x.Calm

theorem CalmAt.of_op (hrisky : s.op.isRisky = false) (hloose : s.op.isLoose = false)
    (hassign : s.op ≠ .assign) (huses : ∀ x ∈ s.uses, x.Calm) : s.CalmAt :=
  ⟨.of_op hloose, .of_hedges hrisky, huses, fun heq => absurd heq hassign⟩

/-- An assignment of a calm value to a calm place. -/
theorem CalmAt.assign {place x : Node} (hplace : place.Calm) (hx : x.Calm) :
    (Node.assign place x).CalmAt := by
  have hsides : ∀ y ∈ [place, x], y.Calm := forall_mem_pair hplace hx
  refine ⟨.of_op rfl, .of_hedges rfl, fun y hy => ?_, fun _ => hsides⟩
  obtain ⟨op, args, payload, type⟩ := place
  cases op <;> first
    | exact hsides y hy
    | exact List.mem_singleton.1 hy ▸ hx

/-- A calm call as a statement. -/
theorem Calm.at (h : s.Calm) (hop : s.op = .call ∨ s.op = .methodCall) : s.CalmAt := by
  refine ⟨h.settled, fun _ => h.every s s.self_mem_subterms, ?_, fun heq => ?_⟩
  · rw [uses_of_call hop]
    exact List.forall_mem_singleton.2 h
  · rw [heq] at hop
    rcases hop with hop | hop <;> cases hop

end Node

/-- Statements that are calm at their sites are calm. -/
theorem Sited.calm {vars : List ScopeVar} {ns : List Node}
    (h : Sited (fun _ s => s.CalmAt) vars ns) : ∀ n ∈ ns, n.Calm := by
  have hcalm : ∀ s x : Node, x.Calm → x.Every Node.Hedged ∧ s.Hedges x :=
    fun _ _ hx => ⟨hx.every, .settled hx.settled⟩
  intro n hn
  obtain ⟨vars', hsite⟩ := Site.of_mem vars hn
  refine ⟨(h vars' n hsite).settled, Sited.every_of_holds (fun _ hs => hs.hedged)
    (fun s hs x hx => hcalm s x (hs.uses x hx))
    (fun s hs hop x hx => hcalm s x (hs.assigned hop x hx)) ?_ h n hn⟩
  exact fun _ _ _ _ _ _ hx => .settled hx.settled

/-! ## Statements that are built -/

section Parts

variable {env : Env} {b : Nat} {t : Ty} {n : Node}

/-- A place is calm. -/
theorem Place.calm (h : Place env t n) : n.Calm := by
  cases h with
  | var _ _ => exact .leaf rfl rfl
  | field _ _ hobject =>
      refine .one rfl rfl ?_
      rcases hobject with ⟨-, rfl⟩ | ⟨-, hread⟩
      · exact .leaf rfl rfl
      · exact hread.calm

variable (hnames : ∀ f ∈ env.symbols.funcs, f.NoDivider)

include hnames

theorem Initial.calm (h : Initial env b t n) : n.Calm := by
  cases h with
  | value hx => exact hx.calm hnames trivial
  | call _ hf _ hx => exact hx.calm hnames (hnames _ hf)
  | cast _ hx => exact .one rfl rfl (hx.calm hnames trivial).asOperand

theorem Dumps.calm (h : Dumps env b n) : n.Calm := by
  cases h with
  | var _ _ => exact .call (by decide) (forall_mem_pair (.leaf rfl rfl) (.leaf rfl rfl))
  | value _ _ hx =>
      exact .call (by decide) (forall_mem_pair (.leaf rfl rfl) (hx.calm hnames trivial))

/-- An assignment to a place is calm at its site. -/
theorem Assigns.calmAt {place : Node} (hplace : Place env t place)
    (h : Assigns env b t place [n]) : n.CalmAt := by
  cases h with
  | @compound op x hop hx =>
      refine ⟨.of_op rfl, .of_assignModify rfl ?_, forall_mem_pair hplace.calm
        (hx.calm hnames trivial), nofun⟩
      rintro risky hrisky heq
      obtain rfl := Payload.op.inj (Option.some.inj heq)
      unfold Draw.compoundOps at hop
      split at hop <;> revert hrisky <;> revert hop <;> cases op <;> decide
  | value _ hx => exact .assign hplace.calm (hx.calm hnames trivial)
  | constant hx => exact .assign hplace.calm hx.constant.calm

end Parts

variable {g : Generator Unit} {vars : List ScopeVar} {s : Node}

theorem counterBelow_calm (counter : String) (bound : Int64) :
    (Node.counterBelow counter bound).Calm :=
  .two rfl rfl (.one rfl rfl (.leaf rfl rfl)) (.lit _)

/-- Every statement that is built is calm at its site. -/
theorem Stated.calmAt (hnames : ∀ f ∈ g.symbols.funcs, f.NoDivider) (h : Stated g vars s) :
    s.CalmAt := by
  cases h with
  | declaration _ _ _ hinit => exact .assign (.leaf rfl rfl) (hinit.calm hnames)
  | counter _ => exact .assign (.leaf rfl rfl) (.lit _)
  | assignment hplace h => exact h.calmAt hnames hplace
  | dump h => exact (h.calm hnames).at (Or.inl h.call_op)
  | echo h =>
      exact .of_op rfl rfl nofun (forall_mem_pair (h.calm hnames trivial) (.lit _))
  | voidCall hf _ h => exact (h.calm hnames (hnames _ hf)).at h.call_op
  | block body | defaultCase body | breakJump | continueJump => exact .of_op rfl rfl nofun nofun
  | ifThen _ h | ifElse _ _ h =>
      exact .of_op rfl rfl nofun (List.forall_mem_singleton.2 (h.calm hnames trivial))
  | whileLoop | doWhile =>
      exact .of_op rfl rfl nofun (List.forall_mem_singleton.2 (counterBelow_calm _ _))
  | switch ht _ h _ =>
      refine ⟨.of_op rfl, .of_tag (Or.inl rfl) (forall_of_some ?_),
        List.forall_mem_singleton.2 (h.calm hnames trivial), nofun⟩
      exact fun vars => Fits.not_float_of_tag ht h.fits
  | @case t l body ht hl _ =>
      refine ⟨.of_op rfl, .of_tag (Or.inr rfl) (forall_of_some ?_),
        List.forall_mem_singleton.2 (.lit _), nofun⟩
      have hfits : Fits [] t (.lit l) := hl.fits
      exact fun vars => Fits.not_float_of_tag ht hfits
  | returns h =>
      cases h with
      | void _ => exact .of_op rfl rfl nofun nofun
      | value _ h =>
          exact .of_op rfl rfl nofun (List.forall_mem_singleton.2 (h.calm hnames trivial))

end TypedPhp
