import TypedPhp.Generate.Decl
import TypedPhp.Proofs.Decl.Settling
import TypedPhp.Proofs.Stmt.Sites
import TypedPhp.Proofs.Stmt.Steps

set_option autoImplicit false

/-!
# Bodies of functions

A body is built in a state in which nothing but the parameters is in scope, and the state after it
has an empty scope again, so the next function can be begun. `FuncDecl.Built` records how a body was
built, and `FuncDecl.Built.sited` describes its sites: they are read from the parameters, and in a
method from the current object as well.
-/

namespace TypedPhp

/-! ## Between functions -/

/-- No function is being built: no frame is open, and the table is settled. -/
structure Resting {ρ : Type} (config : Config) (t : SymbolTable) (g : Generator ρ) : Prop where
  config : g.config = config
  symbols : g.symbols = t
  scope : g.scope = .empty

/-- A table in which everything is settled. -/
structure SymbolTable.Ready (t : SymbolTable) : Prop where
  consistent : t.Consistent
  frozen : t.isFrozen = true
  sound : ∀ f ∈ t.funcs, f.Sound
  closed : t.Closed

theorem SymbolTable.Ready.castable {t : SymbolTable} (h : t.Ready) : t.Castable :=
  fun f hf p hp => ((h.sound f hf).params p hp).castable

/-- The environment at the start of a function: its parameters, and the current object of a
method. -/
def FuncType.entryVars (f : FuncType) : List ScopeVar :=
  f.params.map (fun p => ⟨p.name, p.type⟩) ++ f.owner.toList.map fun c => ⟨"this", .object c⟩

/-- A function has been begun: its parameters are in scope, and no fresh name is taken. -/
structure Begun (config : Config) (t : SymbolTable) (f : FuncType) (g : Generator Unit) :
    Prop where
  config : g.config = config
  symbols : g.symbols = t
  currentClass : g.currentClass = f.owner
  currentResult : g.currentResult = f.result
  stmtDepth : g.stmtDepth = 0
  jumps : g.jumps = []
  nextVar : g.nextVar = 0
  nextCounter : g.nextCounter = 0
  isOpen : g.scope.counts ≠ []
  params : ∀ v ∈ g.scope.vars, ∃ p ∈ f.params, v = ⟨p.name, p.type⟩

/-- The environment at the start covers the state in which a function has been begun. -/
theorem Begun.covers {config : Config} {t : SymbolTable} {f : FuncType} {g : Generator Unit}
    (hf : f.Drawn t.classNames) (howner : f.OwnedIn t) (h : Begun config t f g) :
    Covers f.entryVars g := by
  obtain ⟨n, hn⟩ := hf.names
  have hnames : f.entryVars.map (·.name) =
      (List.range n).map Draw.paramName ++ f.owner.toList.map fun _ => "this" := by
    rw [FuncType.entryVars, List.map_append, List.map_map, List.map_map, ← hn]
    rfl
  -- Parameters begin with `p`, and the current object with `t`; fresh names begin with neither.
  have hfresh : ∀ x : String, x.toList.head? ≠ some 'p' → x.toList.head? ≠ some 't' →
      x ∉ f.entryVars.map (·.name) := by
    intro x hp ht hmem
    rw [hnames] at hmem
    rcases List.mem_append.1 hmem with hmem | hmem
    · obtain ⟨i, -, rfl⟩ := List.mem_map.1 hmem
      exact hp (by simp [Draw.paramName, String.toList_append])
    · obtain ⟨c, -, rfl⟩ := List.mem_map.1 hmem
      exact ht rfl
  refine ⟨?_, ?_, ?_, ?_, ?_, ?_, ?_, ?_⟩
  · intro v hv
    obtain ⟨p, hp, rfl⟩ := h.params v hv
    exact List.mem_append_left _ (List.mem_map_of_mem hp)
  · intro v hv
    obtain ⟨p, hp, rfl⟩ := h.params v hv
    have hname := List.mem_map_of_mem (f := (·.name)) hp
    rw [hn] at hname
    obtain ⟨i, -, hi⟩ := List.mem_map.1 hname
    rw [← hi]
    apply ne_of_head
    simp [Draw.paramName, String.toList_append]
  · intro c hc
    rw [h.currentClass] at hc
    apply List.mem_append_right
    rw [hc]
    exact List.mem_singleton.2 rfl
  · rw [hnames, List.nodup_append]
    refine ⟨List.Nodup.map (fun _ _ heq => numbered_inj heq) List.nodup_range, ?_, ?_⟩
    · cases f.owner <;> simp
    · rintro x hx y hy rfl
      obtain ⟨i, -, rfl⟩ := List.mem_map.1 hx
      obtain ⟨c, -, heq⟩ := List.mem_map.1 hy
      refine ne_of_head ?_ heq
      simp [Draw.paramName, String.toList_append]
  · intro i _
    apply hfresh <;> simp [String.toList_append]
  · intro i _
    apply hfresh <;> simp [String.toList_append]
  · intro v hv
    rw [h.symbols]
    rcases List.mem_append.1 hv with hv | hv
    · obtain ⟨p, hp, rfl⟩ := List.mem_map.1 hv
      exact hf.within p hp
    · obtain ⟨c, hc, rfl⟩ := List.mem_map.1 hv
      exact .object (howner c (Option.mem_toList.1 hc))
  · intro v hv
    have hname := List.mem_map_of_mem (f := (·.name)) hv
    rw [hnames] at hname
    rcases List.mem_append.1 hname with hname | hname
    · obtain ⟨i, -, hi⟩ := List.mem_map.1 hname
      exact Or.inr ⟨"p", by decide, i, hi.symm⟩
    · obtain ⟨c, -, hc⟩ := List.mem_map.1 hname
      exact Or.inl hc.symm

/-! ## Built functions -/

/-- The statements before a body: none, or a guard that returns from the second call on. -/
inductive Guards (f : FuncType) : (isGuarded : Bool) → List Node → Prop where
  | none : Guards f false []
  | void : f.result = .void → Guards f true
      [.ifThen (.call "fuzz_visited" [.textLit f.qualifiedName]) (.block [.retVoid])]
  | value {x : Node} : f.result.Flat → DrawnConstant f.result x → Guards f true
      [.ifThen (.call "fuzz_visited" [.textLit f.qualifiedName]) (.block [.ret x])]

/-- A statement at a site of a guard: its condition, the block of that, and the return in it. -/
inductive GuardSite (f : FuncType) : Node → Prop where
  | condition (body : List Node) :
      GuardSite f (.ifThen (.call "fuzz_visited" [.textLit f.qualifiedName]) (.block body))
  | block (body : List Node) : GuardSite f (.block body)
  | void : f.result = .void → GuardSite f .retVoid
  | value {x : Node} : ConstantOf f.result x → x.Every Node.Writable → GuardSite f (.ret x)

/-- A function is built: its signature is drawn, and after its guard stands a body that is built
from the state in which it was begun. -/
structure FuncDecl.Built (config : Config) (t : SymbolTable) (isGuarded : Bool) (d : FuncDecl) :
    Prop where
  drawn : d.type.Drawn t.classNames
  owner : d.type.OwnedIn t
  tags : d.tags = d.type.docTags
  body : ∃ guards stmts g g', d.body = guards ++ stmts ∧ Guards d.type isGuarded guards ∧
    Begun config t d.type g ∧ Body g stmts g'

/-- The sites of a guard, which introduces nothing. -/
theorem Guards.placed {f : FuncType} {isGuarded : Bool} {guards : List Node}
    {vars : List ScopeVar} (h : Guards f isGuarded guards) :
    Sited (fun _ => GuardSite f) vars guards ∧ introduceAll vars guards = vars := by
  have hguard : ∀ early : Node, GuardSite f early → early.op.holdsStmts = false →
      Sited (fun _ => GuardSite f) vars [.ifThen
        (.call "fuzz_visited" [.textLit f.qualifiedName]) (.block [early])] := by
    intro early hearly hop
    refine Sited.single (.condition _) fun stmts hstmts => ?_
    obtain rfl := List.mem_singleton.1 hstmts
    refine Sited.single (.block _) fun stmts hstmts => ?_
    obtain rfl := List.mem_singleton.1 hstmts
    exact Sited.simple hop hearly
  cases h with
  | none => exact ⟨.nil, rfl⟩
  | void hvoid => exact ⟨hguard _ (.void hvoid) rfl, rfl⟩
  | value hflat hx =>
      exact ⟨hguard _ (.value hx.constant (hx.writable hflat.writable)) rfl, rfl⟩

/-- The sites of a built function: those of its guard, and those of the body after it, both read
from its parameters on. -/
theorem FuncDecl.Built.parts {config : Config} {t : SymbolTable} {isGuarded : Bool} {d : FuncDecl}
    (h : d.Built config t isGuarded) :
    ∃ guards stmts g, d.body = guards ++ stmts ∧ Guards d.type isGuarded guards ∧
      Begun config t d.type g ∧ Sited (StatedIn g) d.type.entryVars stmts := by
  obtain ⟨guards, stmts, g, g', hbody, hguards, hbegun, hstmts⟩ := h.body
  have hcovers := hbegun.covers h.drawn h.owner
  exact ⟨guards, stmts, g, hbody, hguards, hbegun, body_placed hbegun.isOpen hcovers hstmts⟩

/-- A state in which the body of a function is built. -/
structure During (config : Config) (t : SymbolTable) (f : FuncType) (g : Generator Unit) :
    Prop where
  config : g.config = config
  symbols : g.symbols = t
  currentResult : g.currentResult = f.result

namespace During

variable {config : Config} {t : SymbolTable} {f : FuncType} {g : Generator Unit}

theorem castable (h : During config t f g) (ht : t.Ready) : g.symbols.Castable := by
  rw [h.symbols]
  exact ht.castable

theorem closed (h : During config t f g) (ht : t.Ready) : g.symbols.Closed := by
  rw [h.symbols]
  exact ht.closed

theorem result_within (h : During config t f g) (hf : f.Drawn t.classNames) :
    g.currentResult.Within g.symbols.classNames := by
  rw [h.currentResult]
  exact hf.result_within

end During

theorem Begun.during {config : Config} {t : SymbolTable} {f : FuncType} {g g' : Generator Unit}
    (h : Begun config t f g) (hsame : SameFunction g g') : During config t f g' :=
  ⟨hsame.config.trans h.config, hsame.symbols.trans h.symbols,
    hsame.currentResult.trans h.currentResult⟩

/-- A property of the sites of guards and of the statements that are built in bodies is one of the
sites of a built function. -/
theorem FuncDecl.Built.sited {config : Config} {t : SymbolTable} {isGuarded : Bool} {d : FuncDecl}
    {P : List ScopeVar → Node → Prop} (h : d.Built config t isGuarded)
    (hguard : ∀ vars s, GuardSite d.type s → P vars s)
    (hbody : ∀ g vars s, During config t d.type g → Covers vars g → Stated g vars s → P vars s) :
    Sited P d.type.entryVars d.body := by
  obtain ⟨guards, stmts, g, heq, hguards, hbegun, hstmts⟩ := h.parts
  have hplaced : Sited (fun _ => GuardSite d.type) d.type.entryVars guards ∧
      introduceAll d.type.entryVars guards = d.type.entryVars := hguards.placed
  obtain ⟨hsited, hintroduced⟩ := hplaced
  rw [heq]
  apply (hsited.mono hguard).append
  rw [hintroduced]
  refine hstmts.mono fun vars s hs => ?_
  obtain ⟨g', hsame, hcovers, hstated⟩ := hs
  exact hbody g' vars s (hbegun.during hsame) hcovers hstated

/-! ## Building -/

variable {ρ : Type} [WordSource ρ] {E : Fault → Prop} {config : Config} {t : SymbolTable}
  {g : Generator ρ}

namespace Build

omit [WordSource ρ] in
/-- Parameters are brought into scope one after another. -/
theorem pushParams_runs : ∀ {ps : List Param} {g : Generator ρ}, g.scope.counts ≠ [] →
    Runs E (ps.forM fun p => modifyScope fun s => s.push p.name p.type) g fun _ g' =>
      ∃ s, g' = { g with scope := s } ∧
        Scope.Grown (fun v => ∃ p ∈ ps, v = ⟨p.name, p.type⟩) g.scope s
  | [], g, hopen => Runs.pure ⟨g.scope, rfl, .refl hopen⟩
  | p :: ps, g, hopen => by
      obtain ⟨s, hpush, -, hgrown⟩ := Scope.push_grown hopen p.name p.type
      have hcons : (p :: ps).forM (fun p => modifyScope fun s => s.push p.name p.type) = (do
          modifyScope fun s => s.push p.name p.type
          ps.forM fun p => modifyScope fun s => s.push p.name p.type : Build ρ Unit) := rfl
      rw [hcons]
      refine Runs.bind (modifyScope_runs hpush ?_)
      refine (pushParams_runs (g := { g with scope := s }) hgrown.counts_ne_nil).mono
        fun _ g' h => ?_
      obtain ⟨s', rfl, hgrown'⟩ := h
      refine ⟨s', rfl, (hgrown.mono ?_).trans (hgrown'.mono ?_)⟩
      · rintro v rfl
        exact ⟨p, List.mem_cons_self, rfl⟩
      · rintro v ⟨q, hq, rfl⟩
        exact ⟨q, List.mem_cons_of_mem p hq, rfl⟩

/-- The guard of a function is drawn. -/
theorem guard_gives {env : Env} (hc : env.config.ChancesIn E) {f : FuncType} (hf : f.Sound) :
    Draw.Gives E (Draw.guard env f : Draw ρ Node) fun n => Guards f true [n] := by
  unfold Draw.guard
  dsimp only
  refine Draw.Gives.ite_bind (P := fun n => Guards f true
    [.ifThen (.call "fuzz_visited" [.textLit f.qualifiedName]) (.block [n])])
    (fun hvoid => ?_) (fun hvoid => ?_) fun early h => Draw.Gives.pure h
  · rcases hf.result with hresult | hflat
    · exact Draw.Gives.pure (.void hresult)
    · rw [hflat.proper.not_isVoid] at hvoid
      cases hvoid
  · rcases hf.result with hresult | hflat
    · rw [hresult] at hvoid
      exact absurd rfl hvoid
    · refine (Draw.constant_gives hc hflat.isConstInitializable hflat.proper).map fun x hx => ?_
      exact .value hflat hx

/-- A state in which a function has been begun is ready for statements. -/
theorem Begun.ready (hcfg : config.Tolerated E) (hE : E .outOfAttempts) (ht : t.Ready)
    {f : FuncType} (hf : f.Sound) {g : Generator Unit} (h : Begun config t f g) :
    Ready E config.maxStmtDepth g := by
  have hroom : g.room = config.maxStmtDepth := by
    rw [Generator.room, h.config, h.stmtDepth]
    rfl
  refine ⟨hroom, ?_, ⟨?_, ?_, ?_, ?_⟩, h.isOpen, ?_, ?_, hE⟩
  · rw [h.config]
    exact hcfg
  · rw [show g.env.config = config from h.config]
    exact hcfg.chances
  · rw [show g.env.symbols = t from h.symbols]
    exact ht.consistent
  · rw [show g.env.symbols = t from h.symbols]
    exact ht.frozen
  · rw [show g.env.symbols = t from h.symbols]
    exact fun f hf p hp => ((ht.sound f hf).params p hp).proper
  · intro v hv
    obtain ⟨p, hp, rfl⟩ := h.params v hv
    exact (hf.params p hp).proper
  · rw [h.currentResult]
    -- A sound result is nothing or flat, so the test for `void` decides which.
    rcases hf.result with hresult | hflat
    · rw [hresult]
      exact Or.inl rfl
    · exact Or.inr hflat.proper

/-- A function is built, and no frame is open after it. -/
theorem funcDecl_runs (hcfg : config.Tolerated E) (hE : E .outOfAttempts) (ht : t.Ready)
    {f : FuncType} (hf : f.Drawn t.classNames) (howner : f.OwnedIn t) (isGuarded : Bool)
    (hg : Resting config t g) :
    Runs E (funcDecl isGuarded f) g fun d g' =>
      (d.Built config t isGuarded ∧ d.type = f) ∧ Resting config t g' := by
  unfold funcDecl
  have hbegin : beginFunction f.owner f.result g = .ok ((), { g with
      stmtDepth := 0
      jumps := []
      nextVar := 0
      nextCounter := 0
      currentClass := f.owner
      currentResult := f.result }) := by
    rw [beginFunction, hg.scope]
    rfl
  refine Runs.bind (Runs.ok hbegin ?_)
  refine Runs.bind (inFrame_runs ?_)
  refine Runs.bind ((pushParams_runs (List.cons_ne_nil _ _)).mono fun _ g₁ h => ?_)
  obtain ⟨s, rfl, hgrown⟩ := h
  let begun : Generator ρ := { g with
    scope := s
    stmtDepth := 0
    jumps := []
    nextVar := 0
    nextCounter := 0
    currentClass := f.owner
    currentResult := f.result }
  have hbegun : Begun config t f begun.view := by
    refine ⟨hg.config, hg.symbols, rfl, rfl, rfl, rfl, rfl, rfl, hgrown.counts_ne_nil, ?_⟩
    intro v hv
    rcases hgrown.mem_vars hv with hv | hv
    · rw [hg.scope] at hv
      cases hv
    · exact hv
  have hready := Begun.ready hcfg hE ht hf.toSound hbegun
  -- With and without a guard the body is built from the same state, but for the source.
  have hbody : ∀ guards source, Guards f isGuarded guards →
      Runs E (do
        let stmts ← body ((← get).config.maxStmtDepth + 1)
        return guards ++ stmts) { begun with source } fun stmts g' =>
          ∃ s, g'.scope.leave = .ok s ∧
            Runs E (pure ⟨f, f.docTags, stmts⟩ : Build ρ FuncDecl) { g' with scope := s }
              fun d g' => (d.Built config t isGuarded ∧ d.type = f) ∧ Resting config t g' := by
    intro guards source hguards
    refine Runs.bind (get_runs ?_)
    have hstack :
        config.maxStmtDepth < ({ begun with source } : Generator ρ).config.maxStmtDepth + 1 :=
      Nat.lt_succ_of_le (Nat.le_of_eq (congrArg Config.maxStmtDepth hg.config.symm))
    refine Runs.bind ((body_follows hstack { begun with source } hready).mono fun stmts g' h => ?_)
    have hadvance : Advances begun.view g'.view := body_advances hbegun.isOpen h
    have hleave : g'.scope.leave = .ok g.scope :=
      ((hgrown.mono fun _ _ => trivial).trans
        (hadvance.scope.mono fun _ _ => trivial)).leave_enter
    have hsame := hadvance.sameFunction
    refine Runs.pure ⟨g.scope, hleave, Runs.pure ⟨⟨⟨hf, howner, rfl, ?_⟩, rfl⟩, ?_, ?_, hg.scope⟩⟩
    · exact ⟨guards, stmts, begun.view, g'.view, rfl, hguards, hbegun, h⟩
    · exact hsame.config.trans hg.config
    · exact hsame.symbols.trans hg.symbols
  cases isGuarded with
  | false => exact hbody [] begun.source .none
  | true =>
      refine Runs.bind (draw_runs (guard_gives hready.sound.chances hf.toSound)
        fun n source hn => ?_)
      exact hbody [n] source hn

end Build

end TypedPhp
