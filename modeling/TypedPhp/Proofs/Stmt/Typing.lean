import TypedPhp.Proofs.Stmt.Sites

set_option autoImplicit false

/-!
# Well-typed statements

`WellTyped table vars result n` is a typing judgment on finished statements: `table` holds the
functions and classes of the program, `vars` is the environment at the site of the statement, and
`result` is the declared result of the function around it. It says nothing of the statements nested
in `n`, which have sites of their own. Every statement that is built is well typed
(`Stated.wellTyped`).
-/

namespace TypedPhp

/-! ## Calls -/

section Calls

variable (vars : List ScopeVar)

/-- An argument fits a parameter: it fits the type, under a cast where one is asked for. -/
inductive ArgFits (p : Param) : Node → Prop where
  | plain {x : Node} : p.mustCast = false → Fits vars p.type x → ArgFits p x
  | cast {x : Node} : p.mustCast = true → Fits vars p.type x → ArgFits p (.cast p.type x)

/-- Arguments fit the first parameters of a function, and are enough for all that need one. -/
structure ArgsFit (f : FuncType) (args : List Node) : Prop where
  enough : f.minArgs ≤ args.length
  notMore : args.length ≤ f.params.length
  fit : ∀ p x, (p, x) ∈ f.params.zip args → ArgFits vars p x

/-- A call of a function or a method with fitting arguments. -/
inductive CallFits (f : FuncType) : Node → Prop where
  | function {args : List Node} : f.owner = none → ArgsFit vars f args →
      CallFits f ((Node.call f.name args).withType f.result)
  | method {c : ClassRef} {object : Node} {args : List Node} : f.owner = some c →
      Fits vars (.object c) object → ArgsFit vars f args →
      CallFits f ((Node.methodCall object f.name args).withType f.result)

end Calls

section Judgment

variable (table : SymbolTable) (vars : List ScopeVar)

/-! ## Assignments -/

/-- The left side of an assignment at a type: a variable that has this type or is new, or a field of
this type in a class of the table. -/
inductive Target (t : Ty) : Node → Prop where
  | var {v : ScopeVar} : v ∈ vars ∨ v.name ∉ vars.map (·.name) → v.type = t →
      Target t (Env.varNode v)
  | field {c : ClassRef} {type : ClassType} {f : Field} {object : Node} : type ∈ table.classes →
      type.name = c.name → f ∈ type.fields → f.type = t → Fits vars (.object c) object →
      Target t ((Node.prop object f.name).withType t)

/-- The right side of an assignment at a type. Nothing but a literal of an enum or a variable of it
is assigned at the enum. -/
inductive Assignable : Ty → Node → Prop where
  | value {t : Ty} {x : Node} : (∀ e, t ≠ .enum e) → Fits vars t x → Assignable t x
  | enumLiteral {e : EnumType} {l : Literal} : l ∈ e.values → Assignable (.enum e) (.lit l)
  | enumVar {e : EnumType} {v : ScopeVar} : v ∈ vars → v.type.identical (.enum e) = true →
      Assignable (.enum e) (Env.varNode v)
  | cast {k : Scalar} {x : Node} : Fits vars (.scalar k) x →
      Assignable (.scalar k) (.cast (.scalar k) x)
  | call {elem : Ty} {f : FuncType} {x : Node} : f ∈ table.funcs →
      f.result.identical (.array elem) = true → CallFits vars f x → Assignable (.array elem) x

/-- An operator modifies values of a kind. -/
inductive Op.Modifies : Scalar → Op → Prop where
  | int {op : Op} : op ∈ bitwise → Modifies .int op
  | float {op : Op} : op ∈ arithmetic → Modifies .float op
  | string : Modifies .string concat

/-! ## Statements -/

/-- A statement is well typed at a site with the given environment, in a function with the given
result. -/
inductive WellTyped (result : Ty) : Node → Prop where
  -- Nested statements are left to their own sites, so bodies are arbitrary here.
  | assign {t : Ty} {place x : Node} : Target table vars t place → Assignable table vars t x →
      WellTyped result (.assign place x)
  | modify {k : Scalar} {op : Op} {place x : Node} : op.Modifies k →
      Target table vars (.scalar k) place → Fits vars (.scalar k) x →
      WellTyped result (.assignModify op place x)
  | dump {t : Ty} {x : Node} : t.canDump = true → Fits vars t x →
      WellTyped result (.call "fuzz_dump" [.name "__LINE__", x])
  | echo {x : Node} : Fits vars .string x →
      WellTyped result (.ofArgs .echo [x, .textLit "\n"])
  | voidCall {f : FuncType} {n : Node} : f ∈ table.funcs → f.result = .void → CallFits vars f n →
      WellTyped result n
  | block (body : List Node) : WellTyped result (.block body)
  | ifThen {cond : Node} (body : Node) : Fits vars .bool cond →
      WellTyped result (.ifThen cond body)
  | ifElse {cond : Node} (body other : Node) : Fits vars .bool cond →
      WellTyped result (.ifElse cond body other)
  | guard (key : String) (body : Node) :
      WellTyped result (.ifThen (.call "fuzz_visited" [.textLit key]) body)
  | whileLoop {counter : String} (bound : Int64) (body : Node) : ⟨counter, .int⟩ ∈ vars →
      WellTyped result (.ofArgs .whileLoop [.counterBelow counter bound, body])
  | doWhile {counter : String} (bound : Int64) (body : Node) : ⟨counter, .int⟩ ∈ vars →
      WellTyped result (.ofArgs .doWhile [body, .counterBelow counter bound])
  | switch {t : Ty} {tag : Node} {cases : List Node} : TagType t → Fits vars t tag →
      (∀ c ∈ cases, (∃ l body, c = .ofArgs .case (.lit l :: body) ∧ Fits vars t (.lit l)) ∨
        ∃ body, c = .ofArgs .defaultCase body) →
      WellTyped result (.ofArgs .switch (tag :: cases))
  | case {t : Ty} {l : Literal} (body : List Node) : TagType t → Fits vars t (.lit l) →
      WellTyped result (.ofArgs .case (.lit l :: body))
  | defaultCase (body : List Node) : WellTyped result (.ofArgs .defaultCase body)
  | breakJump : WellTyped result (.ofArgs .breakJump [])
  | continueJump : WellTyped result (.ofArgs .continueJump [])
  | returnVoid : result.isVoid = true → WellTyped result .retVoid
  | returnValue {x : Node} : result.isVoid = false → Fits vars result x →
      WellTyped result (.ret x)

end Judgment

/-! ## What is built fits -/

variable {g : Generator Unit} {vars : List ScopeVar} {table : SymbolTable} {t : Ty} {n : Node}
  {b : Nat}

namespace Covers

theorem fits (hg : Covers vars g) (h : Derives g.env b (.value t) n) : Fits vars t n :=
  Fits.mono hg.visible h.fits

theorem this_fits (hg : Covers vars g) {c : ClassRef} (hc : g.env.isCurrent c = true) :
    Fits vars (.object c) (.var "this" (.object c)) :=
  .sameVar (v := ⟨"this", .object c⟩) rfl (hg.this c (eq_of_beq hc)) (Ty.identical_refl _)

theorem reads_fits (hg : Covers vars g) (ht : t.scalarKind? = none) (h : g.env.Reads t n) :
    Fits vars t n := by
  obtain ⟨v, hv, hty, rfl⟩ := h
  exact .sameVar ht (hg.visible v hv) hty

/-- A visible variable fits its type. -/
theorem var_fits (hg : Covers vars g) {v : ScopeVar} (hv : v ∈ g.env.scope.visible) :
    Fits vars v.type (Env.varNode v) := by
  have hmem := hg.visible v hv
  cases hty : v.type with
  | scalar k => exact .scalarVar hmem hty
  | _ => exact .sameVar rfl hmem (by rw [hty]; exact Ty.identical_refl _)

/-- A received object fits its class. -/
theorem receives_fits (hg : Covers vars g) {c : ClassRef} (h : Receives g.env c n) :
    Fits vars (.object c) n := by
  cases h with
  | this hc => exact hg.this_fits hc
  | «variable» _ hread => exact hg.reads_fits rfl hread
  | fresh _ => exact .parens (.newObject c)

theorem argFits (hg : Covers vars g) {p : Param} (h : Derives g.env b (.argument p) n) :
    ArgFits vars p n := by
  cases h with
  | plainArgument hcast hx => exact .plain hcast (hg.fits hx)
  | strictArgument hcast hx => exact .cast hcast (hg.fits hx).asOperand

/-- A derived call fits the function. -/
theorem callFits (hg : Covers vars g) {f : FuncType} (h : Derives g.env b (.call f) n) :
    CallFits vars f n := by
  cases h with
  | functionCall howner hmin hmax hargs =>
      exact .function howner ⟨hmin, hmax, fun p x hx => hg.argFits (hargs p x hx)⟩
  | methodCall howner hobject hmin hmax hargs =>
      exact .method howner (hg.receives_fits hobject)
        ⟨hmin, hmax, fun p x hx => hg.argFits (hargs p x hx)⟩

/-! ## Assignments -/

/-- A place is a target. -/
theorem target (hg : Covers vars g) (h : Place g.env t n) : Target g.symbols vars t n := by
  cases h with
  | var hv hty => exact .var (Or.inl (hg.visible _ hv)) hty
  | @field c f object ht hfield hobject =>
      obtain ⟨type, htype, hname, hf⟩ := hfield.known
      obtain ⟨k⟩ := ht
      refine .field (List.mem_of_getElem? htype) hname hf
        (Ty.identical_scalar_iff.1 hfield.type) ?_
      rcases hobject with ⟨hc, rfl⟩ | ⟨-, hread⟩
      · exact hg.this_fits hc
      · exact hg.reads_fits rfl hread

/-- What is derived for a type can be assigned at it. For an enum nothing but its literals and
variables is derived. -/
theorem assignable (hg : Covers vars g) (h : Derives g.env b (.value t) n) :
    Assignable table vars t n := by
  -- The grammar has only two rules for an enum.
  by_cases henum : ∃ e, t = .enum e
  · obtain ⟨e, rfl⟩ := henum
    cases h with
    | reused _ hread =>
        obtain ⟨v, hv, hty, rfl⟩ := hread
        exact .enumVar (hg.visible v hv) hty
    | enumValue hl => exact .enumLiteral hl
  · exact .value (fun e he => henum ⟨e, he⟩) (hg.fits h)

/-- A first value of a variable can be assigned at its type. -/
theorem initial (hg : Covers vars g) (h : Initial g.env b t n) :
    Assignable g.symbols vars t n := by
  cases h with
  | value hx => exact hg.assignable hx
  | call ht hf hresult hx =>
      subst ht
      exact .call hf hresult (hg.callFits hx)
  | cast ht hx =>
      subst ht
      exact .cast (hg.fits hx).asOperand

end Covers

/-- A constant of a type can be assigned at it. -/
theorem ConstantOf.assignable (h : ConstantOf t n) : Assignable table vars t n := by
  by_cases henum : ∃ e, t = .enum e
  · obtain ⟨e, rfl⟩ := henum
    cases h with
    | enum hl => exact .enumLiteral hl
  · exact .value (fun e he => henum ⟨e, he⟩) h.fits

/-- Compound assignments modify integers, floats and strings. -/
theorem Draw.modifies_of_mem_compoundOps {op : Op} (h : op ∈ Draw.compoundOps t) :
    ∃ k, t = .scalar k ∧ op.Modifies k := by
  unfold Draw.compoundOps at h
  split at h
  · exact ⟨.int, rfl, .int h⟩
  · exact ⟨.float, rfl, .float h⟩
  · obtain rfl := List.mem_singleton.1 h
    exact ⟨.string, rfl, .string⟩
  · cases h

/-- Every statement that is built is well typed. -/
theorem Stated.wellTyped (hg : Covers vars g) (h : Stated g vars n) :
    WellTyped g.symbols vars g.currentResult n := by
  cases h with
  | @declaration i t x hfresh _ _ hinit =>
      have htarget : Target g.symbols vars t (Env.varNode ⟨"v" ++ toString i, t⟩) :=
        .var (Or.inr hfresh) rfl
      exact .assign htarget (hg.initial hinit)
  | @counter i hfresh =>
      have htarget : Target g.symbols vars .int (Env.varNode ⟨"_c" ++ toString i, .int⟩) :=
        .var (Or.inr hfresh) rfl
      exact .assign htarget (.value nofun (.literal (.int 0)))
  -- The left side is a known variable or a field, and the right side follows its type.
  | assignment hplace h =>
      have htarget := hg.target hplace
      cases h with
      | compound hop hx =>
          obtain ⟨k, rfl, hmodifies⟩ := Draw.modifies_of_mem_compoundOps hop
          exact .modify hmodifies htarget (hg.fits hx)
      | value _ hx => exact .assign htarget (hg.assignable hx)
      | constant hx => exact .assign htarget hx.constant.assignable
  | dump h =>
      cases h with
      | var hv hdump => exact .dump hdump (hg.var_fits hv)
      | value hdump _ hx => exact .dump hdump (hg.fits hx)
  | echo h => exact .echo (Fits.mono hg.visible h.fits)
  | voidCall hf hresult h => exact .voidCall hf hresult (hg.callFits h)
  | block body => exact .block body
  | ifThen body h => exact .ifThen _ (Fits.mono hg.visible h.fits)
  | ifElse body other h => exact .ifElse _ _ (Fits.mono hg.visible h.fits)
  | whileLoop body hcounter _ _ => exact .whileLoop _ _ hcounter
  | doWhile body hcounter _ _ => exact .doWhile _ _ hcounter
  | switch ht _ h hcases =>
      refine .switch ht (hg.fits h) fun c hc => ?_
      rcases hcases c hc with ⟨l, body, rfl, hl⟩ | hdefault
      · exact Or.inl ⟨l, body, rfl, hl.fits⟩
      · exact Or.inr hdefault
  | case body ht hl _ => exact .case body ht hl.fits
  | defaultCase body => exact .defaultCase body
  | breakJump => exact .breakJump
  | continueJump => exact .continueJump
  | returns h =>
      cases h with
      | void hvoid => exact .returnVoid hvoid
      | value hvoid hx => exact .returnValue hvoid (hg.fits hx)

end TypedPhp
