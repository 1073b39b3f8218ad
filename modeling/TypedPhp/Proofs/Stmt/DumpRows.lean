import TypedPhp.Proofs.Decl.Bodies
import TypedPhp.Proofs.Read.DumpRows
import TypedPhp.Proofs.Stmt.Linked

set_option autoImplicit false

/-!
# Rows of dumps in generated statements

Over a table with ordinary names, a dump is nothing but a statement of a list, and every statement
that is built has the dumps in it on rows of their own (`FuncDecl.Built.dumps`). One step of an
induction over the sites of a body is a statement whose bodies have their dumps on rows of their own
(`Node.DumpsAt`).
-/

namespace TypedPhp

open Print (StmtDumps ClauseDumps)

/-! ## Sites -/

namespace Node

/-- A statement has the dumps in it on rows of their own, and so have those in the lists inside it.
-/
structure DumpsApart (s : Node) : Prop where
  rows : StmtDumps s
  inner : ∀ body ∈ s.bodies, ∀ x ∈ body, StmtDumps x

/-- A statement has the dumps in it on rows of their own if those in the lists inside it have. -/
def DumpsAt (s : Node) : Prop :=
  (∀ body ∈ s.bodies, ∀ x ∈ body, x.DumpsApart) → StmtDumps s

theorem DumpsAt.simple {s : Node} (h : StmtDumps s) : s.DumpsAt := fun _ => h

/-- The statements of a block that is the only statement in a list inside a statement. -/
theorem inner_of_block {s : Node} {body : List Node}
    (h : ∀ body ∈ s.bodies, ∀ x ∈ body, x.DumpsApart) (hmem : [.block body] ∈ s.bodies) :
    ∀ x ∈ body, StmtDumps x :=
  (h _ hmem _ List.mem_cons_self).inner body List.mem_cons_self

end Node

/-- Statements whose sites have their dumps on rows of their own have them so. -/
theorem Sited.dumps {vars : List ScopeVar} {ns : List Node}
    (h : Sited (fun _ => Node.DumpsAt) vars ns) : ∀ n ∈ ns, StmtDumps n := by
  have hall : ∀ n ∈ ns, n.DumpsApart := h.induction fun vars s hs hinner =>
    ⟨hs hinner, fun body hbody x hx => (hinner body hbody x hx).rows⟩
  exact fun n hn => (hall n hn).rows

/-- A case or a default is no statement by itself. -/
theorem Node.DumpsAt.clause {op : Op} {args : List Node} (hop : op ∈ [.case, .defaultCase]) :
    (Node.ofArgs op args).DumpsAt := by
  simp only [List.mem_cons, List.not_mem_nil, or_false] at hop
  intro _ indent text h
  rcases hop with rfl | rfl <;> cases h

/-! ## Statements that are built -/

theorem Covers.admits_ordinary {g : Generator Unit} {vars : List ScopeVar} (hg : Covers vars g)
    (hnames : g.symbols.Ordinary) : g.env.Admits Node.Ordinary :=
  Env.admits_ordinary hnames fun v hv => (hg.named v (hg.visible v hv)).ordinary

theorem Node.var_ordinary {name : String} (h : VariableName name) (type : Ty) :
    (Node.var name type).Every Node.Ordinary :=
  .leaf (.of_name rfl h.ordinary)

/-- Every statement that is built has the dumps in it on rows of their own. -/
theorem Stated.dumpsAt {g : Generator Unit} {vars : List ScopeVar} {s : Node}
    (hclosed : g.symbols.Closed) (hnames : g.symbols.Ordinary)
    (hresult : g.currentResult.Within g.symbols.classNames) (hg : Covers vars g)
    (h : Stated g vars s) : s.DumpsAt := by
  have hclosed : g.env.symbols.Closed := hclosed
  have hadmits := hg.admits_ordinary hnames
  have hassign : ∀ {place x : Node}, place.Every Node.Ordinary → x.Every Node.Ordinary →
      (Node.assign place x).DumpsAt := fun hplace hx =>
    .simple (.expr rfl (.two (.of_none rfl) hplace hx))
  have hcategory : ∀ {c : Category} {x : Node}, Derives g.env g.budget (.category c) x →
      x.Every Node.Ordinary := fun h => h.every hclosed hadmits trivial
  have hcheck : ∀ {counter : String} {bound : Int64}, ⟨counter, .int⟩ ∈ vars →
      (Node.counterBelow counter bound).Every Node.Ordinary := fun hv =>
    hadmits.two ⟨rfl, rfl⟩ (hadmits.one ⟨rfl, rfl⟩ (Node.var_ordinary (hg.named _ hv) _))
      (hadmits.lit _)
  cases h with
  | @declaration i _ _ _ _ hwithin hinit =>
      exact hassign (Node.var_ordinary (.fresh i) _) (hinit.every hclosed hadmits hwithin)
  | counter _ => exact hassign (Node.var_ordinary (.counter _) _) (hadmits.lit _)
  | @assignment t _ _ hplace h =>
      have hwithin : t.Within g.env.symbols.classNames := hplace.within hg
      have hplace := hplace.every hadmits
      cases h with
      | compound _ hx =>
          exact .simple (.expr rfl (.two (.of_none rfl) hplace (hx.every hclosed hadmits hwithin)))
      | value _ hx => exact hassign hplace (hx.every hclosed hadmits hwithin)
      | constant hx => exact hassign hplace (hx.constant.every hadmits)
  | dump h =>
      obtain ⟨x, rfl, hx⟩ := h.exists_value hclosed hadmits
      exact .simple (.dump hx)
  | echo h => exact .simple (.echo (forall_mem_pair (hcategory h) (hadmits.lit _)))
  | voidCall hf _ h =>
      refine .simple (.expr ?_ (h.every hclosed hadmits hf))
      rcases h.call_op with hop | hop <;> rw [hop] <;> rfl
  | block body => exact fun hinner => .block fun x hx => (hinner body List.mem_cons_self x hx).rows
  | ifThen body hcond =>
      exact fun hinner => .headed .ifThen (hcategory hcond)
        (Node.inner_of_block hinner List.mem_cons_self)
  | ifElse body other hcond =>
      refine fun hinner => .ifElse (hcategory hcond) ?_ ?_
      · exact Node.inner_of_block hinner List.mem_cons_self
      · exact Node.inner_of_block hinner (List.mem_cons_of_mem _ List.mem_cons_self)
  | whileLoop body hv _ _ =>
      exact fun hinner => .headed .whileLoop (hcheck hv)
        (Node.inner_of_block hinner List.mem_cons_self)
  | doWhile body hv _ _ =>
      exact fun hinner => .doWhile (Node.inner_of_block hinner List.mem_cons_self) (hcheck hv)
  | switch _ hwithin htag hshape =>
      refine fun hinner => .switch (htag.every hclosed hadmits hwithin) fun c hc => ?_
      -- A case stands alone in a list inside the switch, and its statements in one inside the case.
      have hstmts := (hinner [c] (List.mem_map_of_mem hc) c List.mem_cons_self).inner
      rcases hshape c hc with ⟨l, body, rfl, -⟩ | ⟨body, rfl⟩
      · exact ⟨body, hstmts body List.mem_cons_self, Or.inr ⟨_, hadmits.lit l, rfl⟩⟩
      · exact ⟨body, hstmts body List.mem_cons_self, Or.inl rfl⟩
  | case body _ _ _ => exact .clause (by decide)
  | defaultCase body => exact .clause (by decide)
  | breakJump => exact .simple (.jump (by decide))
  | continueJump => exact .simple (.jump (by decide))
  | returns h =>
      cases h with
      | void _ => exact .simple (.jump (by decide))
      | value _ hx => exact .simple (.ret (hx.every hclosed hadmits hresult))

/-! ## Functions -/

theorem ConstantOf.ordinary {t : Ty} {n : Node} (h : ConstantOf t n) : n.Every Node.Ordinary :=
  h.plain.mono fun _ hm => .of_none hm.2

theorem Node.visit_ordinary (key : String) :
    (Node.call "fuzz_visited" [.textLit key]).Every Node.Ordinary := by
  have hname : OrdinaryName "fuzz_visited" := by decide
  exact .two (.of_none rfl) (.leaf (.of_name rfl hname)) (.leaf (.of_none rfl))

/-- There are no dumps in the statements of a guard. -/
theorem GuardSite.dumpsAt {f : FuncType} {s : Node} (h : GuardSite f s) : s.DumpsAt := by
  cases h with
  | condition body =>
      exact fun hinner => .headed .ifThen (Node.visit_ordinary _)
        (Node.inner_of_block hinner List.mem_cons_self)
  | block body => exact fun hinner => .block fun x hx => (hinner body List.mem_cons_self x hx).rows
  | void _ => exact .simple (.jump (by decide))
  | value hx _ => exact .simple (.ret hx.ordinary)

/-- The statements of a built function have the dumps in them on rows of their own. -/
theorem FuncDecl.Built.dumps {config : Config} {t : SymbolTable} (ht : t.Ready)
    (hnames : t.Ordinary) {isGuarded : Bool} {d : FuncDecl} (h : d.Built config t isGuarded) :
    ∀ s ∈ d.body, StmtDumps s := by
  refine (h.sited (P := fun _ => Node.DumpsAt) (fun _ _ hs => hs.dumpsAt) ?_).dumps
  intro g vars s hin hg hs
  refine hs.dumpsAt (hin.closed ht) ?_ (hin.result_within h.drawn) hg
  rw [hin.symbols]
  exact hnames

end TypedPhp
