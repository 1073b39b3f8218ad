import TypedPhp.Proofs.Expr.Linked
import TypedPhp.Proofs.Stmt.Formed
import TypedPhp.Proofs.Syntax.Subterms

set_option autoImplicit false

/-!
# References of generated statements

A condition on nodes that the surroundings admit holds of every node of the statements built in them,
if it holds as well of the variables that statements introduce and of dumps (`Stated.every`). One
such condition is to be linked: every node of the body of a generated function refers to what the
symbol table holds, or calls a helper: one of those that belong to operators, or the one that dumps
values. What may be used where it stands is decided by the class that the function belongs to, which
is the same throughout the body.
-/

namespace TypedPhp

/-- The helpers that the body of a function calls. -/
def bodyHelpers : List (String × Nat) := ("fuzz_dump", 2) :: operatorHelpers

/-- A condition is admitted in bodies if it holds of what their statements add: the variables that
they introduce, and dumps. -/
structure Env.AdmitsInBody (env : Env) (P : Node → Prop) : Prop where
  admits : env.Admits P
  introduced : ∀ v : ScopeVar, VariableName v.name → P (Env.varNode v)
  helper : P (.name "fuzz_dump")
  line : P (.name "__LINE__")
  dump : ∀ x, P (.call "fuzz_dump" [.name "__LINE__", x])

/-- To be linked in a body is admitted: the helpers of operators are helpers of bodies. -/
theorem Node.Linked.inBody {env : Env} : env.AdmitsInBody (Node.Linked env bodyHelpers) where
  admits := Node.Linked.admitted fun _ he => List.mem_cons_of_mem _ he
  introduced := fun _ _ => .plain rfl
  helper := .plain rfl
  line := .plain rfl
  dump := fun _ => .helper List.mem_cons_self

section Parts

variable {env : Env} {P : Node → Prop} {b : Nat} {t : Ty} {n place : Node}

/-- What is admitted holds of every node of the first value of a variable. -/
theorem Initial.every_over {C : ClassRef → Prop} (href : env.symbols.RefersTo C)
    (hP : env.AdmitsOver C P) (ht : t.ClassesIn C) (h : Initial env b t n) : n.Every P := by
  cases h with
  | value h => exact h.every_over href hP ht
  | call _ hf _ h => exact h.every_over href hP hf
  | cast _ h => exact hP.one ⟨rfl, rfl⟩ (hP.asOperand (h.every_over href hP ht))

/-- What is admitted holds of every node of the first value of a variable, if the table is closed. -/
theorem Initial.every (hclosed : env.symbols.Closed) (hP : env.Admits P)
    (ht : t.Within env.symbols.classNames) (h : Initial env b t n) : n.Every P :=
  h.every_over hclosed.refersTo hP ht.known

/-- What is admitted holds of a place that can be assigned. -/
theorem Place.every (hP : env.Admits P) (h : Place env t place) : place.Every P := by
  cases h with
  | var hv _ => exact hP.known (Or.inl hv)
  | field _ hf hobject =>
      refine hf.every hP hf.className ?_
      rcases hobject with ⟨hc, rfl⟩ | ⟨hc, hread⟩
      · exact .this hc
      · exact .variable hc hread

/-- What is admitted holds of the value in a dump. -/
theorem Dumps.exists_value (hclosed : env.symbols.Closed) (hP : env.Admits P)
    (h : Dumps env b n) : ∃ x, n = .call "fuzz_dump" [.name "__LINE__", x] ∧ x.Every P := by
  cases h with
  | var hv _ => exact ⟨_, rfl, hP.known (Or.inl hv)⟩
  | value _ hwithin h => exact ⟨_, rfl, h.every hclosed hP hwithin⟩

/-- What is admitted in bodies holds of every node of a dump. -/
theorem Dumps.every (hclosed : env.symbols.Closed) (hP : env.AdmitsInBody P)
    (h : Dumps env b n) : n.Every P := by
  obtain ⟨x, rfl, hx⟩ := h.exists_value hclosed hP.admits
  refine .node (hP.dump x) (List.forall_mem_cons.2 ⟨.leaf hP.helper, ?_⟩)
  exact forall_mem_pair (.leaf hP.line) hx

end Parts

/-! ## Statements -/

/-- A condition holds of the nodes of a statement that do not belong to a statement inside it. -/
structure Node.SiteEvery (P : Node → Prop) (n : Node) : Prop where
  root : P n
  uses : ∀ x ∈ n.uses, x.Every P
  assigned : n.op = .assign → ∀ x ∈ n.args, x.op = .var → x.Every P

namespace Node.SiteEvery

variable {P : Node → Prop} {n x place : Node}

theorem simple (hroot : P n) (hassign : n.op ≠ .assign) (huses : ∀ x ∈ n.uses, x.Every P) :
    n.SiteEvery P :=
  ⟨hroot, huses, fun h => absurd h hassign⟩

/-- A call as a statement. -/
theorem call (hop : n.op = .call ∨ n.op = .methodCall) (h : n.Every P) : n.SiteEvery P := by
  refine ⟨?_, ?_, ?_⟩
  · obtain ⟨op, args, payload, type⟩ := n
    exact Node.Every.root h
  · rw [Node.uses_of_call hop]
    exact List.forall_mem_singleton.2 h
  · intro hassign
    rcases hop with hop | hop
    · rw [hop] at hassign
      cases hassign
    · rw [hop] at hassign
      cases hassign

/-- An assignment. -/
theorem assign (hroot : P (Node.assign place x)) (hplace : place.Every P) (hx : x.Every P) :
    (Node.assign place x).SiteEvery P := by
  have hargs : ∀ y ∈ (Node.assign place x).args, y.Every P := by
    intro y hy
    rcases List.mem_cons.1 hy with rfl | hy
    · exact hplace
    · obtain rfl := List.mem_singleton.1 hy
      exact hx
  refine ⟨hroot, fun y hy => hargs y ?_, fun _ y hy _ => hargs y hy⟩
  -- What an assignment evaluates is its right side, and its left side unless that is a variable.
  unfold Node.assign Node.ofArgs at hy
  cases place with
  | mk op args payload type =>
      cases op <;> first
        | exact List.mem_cons_of_mem _ hy
        | exact hy

end Node.SiteEvery

/-- What is admitted in bodies holds of every node of the statements that are built. -/
theorem Stated.every {g : Generator Unit} {vars : List ScopeVar} {n : Node} {P : Node → Prop}
    (hclosed : g.symbols.Closed) (hresult : g.currentResult.Within g.symbols.classNames)
    (hg : Covers vars g) (hP : g.env.AdmitsInBody P) (h : Stated g vars n) : n.SiteEvery P := by
  have hclosed : g.env.symbols.Closed := hclosed
  have hadmits := hP.admits
  have hcategory : ∀ {c : Category} {x : Node}, Derives g.env g.budget (.category c) x →
      x.Every P := fun h => h.every hclosed hadmits trivial
  have hassign : ∀ {place x : Node}, place.Every P → x.Every P → (Node.assign place x).SiteEvery P :=
    .assign (hadmits.plain _ ⟨rfl, rfl⟩)
  have hvariable : ∀ {name : String}, VariableName name → ∀ type, (Node.var name type).Every P :=
    fun hname type => .leaf (hP.introduced ⟨_, type⟩ hname)
  have hcheck : ∀ {counter : String} {bound : Int64}, ⟨counter, .int⟩ ∈ vars →
      ∀ x ∈ [Node.counterBelow counter bound], x.Every P := fun hv => List.forall_mem_singleton.2
    (hadmits.two ⟨rfl, rfl⟩ (hadmits.one ⟨rfl, rfl⟩ (hvariable (hg.named _ hv) _)) (hadmits.lit _))
  -- Statements inside are sites of their own, so only the expressions of a statement count here.
  cases h with
  | @declaration i _ _ _ _ hwithin hinit =>
      exact hassign (hvariable (.fresh i) _) (hinit.every hclosed hadmits hwithin)
  | counter _ => exact hassign (hvariable (.counter _) _) (hadmits.lit _)
  | @assignment t _ _ hplace h =>
      have hwithin : t.Within g.env.symbols.classNames := hplace.within hg
      have hplace := hplace.every hadmits
      cases h with
      | compound _ hx =>
          exact .simple (hadmits.plain _ ⟨rfl, rfl⟩) nofun
            (forall_mem_pair hplace (hx.every hclosed hadmits hwithin))
      | value _ hx => exact hassign hplace (hx.every hclosed hadmits hwithin)
      | constant hx => exact hassign hplace (hx.constant.every hadmits)
  | dump h => exact .call (Or.inl h.call_op) (h.every hclosed hP)
  | voidCall hf _ h => exact .call h.call_op (h.every hclosed hadmits hf)
  | echo h =>
      exact .simple (hadmits.plain _ ⟨rfl, rfl⟩) nofun (forall_mem_pair (hcategory h) (hadmits.lit _))
  | block body | defaultCase body | breakJump | continueJump =>
      exact .simple (hadmits.plain _ ⟨rfl, rfl⟩) nofun nofun
  | ifThen _ h | ifElse _ _ h =>
      exact .simple (hadmits.plain _ ⟨rfl, rfl⟩) nofun (List.forall_mem_singleton.2 (hcategory h))
  | whileLoop _ hv _ _ | doWhile _ hv _ _ =>
      exact .simple (hadmits.plain _ ⟨rfl, rfl⟩) nofun (hcheck hv)
  | switch _ hwithin h _ =>
      exact .simple (hadmits.plain _ ⟨rfl, rfl⟩) nofun
        (List.forall_mem_singleton.2 (h.every hclosed hadmits hwithin))
  | case _ _ _ _ =>
      exact .simple (hadmits.plain _ ⟨rfl, rfl⟩) nofun (List.forall_mem_singleton.2 (hadmits.lit _))
  | returns h =>
      cases h with
      | void _ => exact .simple (hadmits.plain _ ⟨rfl, rfl⟩) nofun nofun
      | value _ h =>
          exact .simple (hadmits.plain _ ⟨rfl, rfl⟩) nofun
            (List.forall_mem_singleton.2 (h.every hclosed hadmits hresult))

/-- A node is linked in some state of the function that is built, where the current object is in no
scope. -/
def Generator.Links (g : Generator Unit) (n : Node) : Prop :=
  ∃ h, SameFunction g h ∧ (∀ v ∈ h.scope.vars, v.name ≠ "this") ∧ n.Linked h.env bodyHelpers

/-- Every node of a body is linked. -/
theorem Sited.linked {g : Generator Unit} {vars : List ScopeVar} {ns : List Node}
    (hclosed : g.symbols.Closed) (hresult : g.currentResult.Within g.symbols.classNames)
    (h : Sited (StatedIn g) vars ns) : ∀ n ∈ ns, n.Every g.Links := by
  refine Sited.every (fun vars s hs => ?_) h
  obtain ⟨g', hsame, hcovers, hstated⟩ := hs
  have hclosed' : g'.symbols.Closed := by
    rw [hsame.symbols]
    exact hclosed
  have hresult' : g'.currentResult.Within g'.symbols.classNames := by
    rw [hsame.currentResult, hsame.symbols]
    exact hresult
  obtain ⟨hroot, huses, hassigned⟩ := hstated.every hclosed' hresult' hcovers Node.Linked.inBody
  have hlinks : ∀ x : Node, x.AllLinked g'.env bodyHelpers → x.Every g.Links :=
    fun x hx => hx.mono fun m hm => ⟨g', hsame, hcovers.unbound, hm⟩
  exact ⟨⟨g', hsame, hcovers.unbound, hroot⟩, fun x hx => hlinks x (huses x hx),
    fun hop x hx hvar => hlinks x (hassigned hop x hx hvar)⟩

end TypedPhp
