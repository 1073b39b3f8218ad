import TypedPhp.Proofs.Runs.Building
import TypedPhp.Proofs.Stmt.Draws
import TypedPhp.Proofs.Stmt.Frames

set_option autoImplicit false

/-!
# Building steps follow the grammar

In a ready state every step that builds statements ends with an effect that the grammar describes.
Readiness is what the steps need to succeed: a tolerated configuration, sound surroundings, an open
frame and proper types in scope. A step that advances the state keeps it ready, so the frame that
was entered around a nested step can be left again. The room that is left at the depth of a state
bounds what can be nested there: at the limit no kind that holds statements has a weight, and what
stands for a jump is a declaration. So a stack with more levels than there is room is never used up.
-/

namespace TypedPhp

variable {E : Fault → Prop}

/-- What a step that builds statements needs, with room for so many nested levels. -/
structure Ready (E : Fault → Prop) (room : Nat) (g : Generator Unit) : Prop where
  room : g.room = room
  config : g.config.Tolerated E
  sound : g.env.Sound E
  isOpen : g.scope.counts ≠ []
  proper : ∀ v ∈ g.scope.vars, v.type.Proper
  result : g.currentResult.isVoid = true ∨ g.currentResult.Proper
  attempts : E .outOfAttempts

namespace Ready

variable {g g' : Generator Unit} {room : Nat}

/-- An advance keeps a state ready. -/
theorem advances (h : Ready E room g) (ha : Advances g g') : Ready E room g' := by
  have hroom : g'.room = room := by
    rw [ha.same]
    exact h.room
  have hsound : g'.env.Sound E := by
    rw [ha.same]
    exact ⟨h.sound.chances, h.sound.consistent, h.sound.frozen, h.sound.params⟩
  refine ⟨hroom, ?_, hsound, ha.isOpen, ?_, ?_, h.attempts⟩
  · rw [ha.same]
    exact h.config
  -- What is new in scope is a fresh variable, and those are of proper types.
  · intro v hv
    rcases ha.scope.mem_vars hv with hv | hv
    · exact h.proper v hv
    · exact hv.1
  · rw [ha.same]
    exact h.result

theorem visible_proper (h : Ready E room g) : ∀ v ∈ g.env.scope.visible, v.type.Proper :=
  fun v hv => h.proper v (Scope.mem_vars_of_mem_visible hv)

/-- A state is ready inside a new frame, one level deeper. -/
theorem enter (h : Ready E (room + 1) g) :
    Ready E room { g with scope := g.scope.enter, stmtDepth := g.stmtDepth + 1 } where
  room := by
    have hroom := h.room
    simp only [Generator.room] at hroom ⊢
    omega
  config := h.config
  sound := ⟨h.sound.chances, h.sound.consistent, h.sound.frozen, h.sound.params⟩
  isOpen := by simp [Scope.enter]
  proper := h.proper
  result := h.result
  attempts := h.attempts

/-- A state is ready inside a jump target. -/
theorem target (h : Ready E room g) (target : JumpTarget) :
    Ready E room { g with jumps := target :: g.jumps } where
  room := h.room
  config := h.config
  sound := h.sound
  isOpen := h.isOpen
  proper := h.proper
  result := h.result
  attempts := h.attempts

/-- A state is ready after a counter has been stepped. -/
theorem stepCounter (h : Ready E room g) :
    Ready E room { g with nextCounter := g.nextCounter + 1 } where
  room := h.room
  config := h.config
  sound := h.sound
  isOpen := h.isOpen
  proper := h.proper
  result := h.result
  attempts := h.attempts

end Ready

namespace Build

variable {ρ : Type}

/-- A step follows an effect: from every ready state with so much room it ends with that effect. -/
def Follows (E : Fault → Prop) (room : Nat) (x : Build ρ (List Node)) (one : Effect) : Prop :=
  ∀ g : Generator ρ, Ready E room g.view → Runs E x g fun ns g' => one g.view ns g'.view

variable {x : Build ρ (List Node)} {one : Effect} {room : Nat}

theorem Follows.mono {other : Effect} (h : Follows E room x one)
    (hle : ∀ g ns g', one g ns g' → other g ns g') : Follows E room x other :=
  fun g hg => (h g hg).mono fun _ _ => hle _ _ _

/-! ## Lists and frames -/

/-- Repetitions of a step follow the repetitions of its effect. -/
theorem repeated_follows (hx : Follows E room x one) (hone : one.Advancing) :
    ∀ n, Follows E room (repeated x n) (Repeats one n)
  | 0 => fun _ _ => Runs.pure (.none _)
  -- Each repetition starts from the state that the one before it has left, ready again.
  | n + 1 => by
      intro g hg
      rw [repeated]
      refine Runs.bind ((hx g hg).mono fun ns g' h => ?_)
      split
      · rename_i hjump
        exact Runs.pure (.jump h hjump)
      · rename_i hjump
        have hg' := hg.advances (hone hg.isOpen h)
        refine Runs.bind ((repeated_follows hx hone n g' hg').mono fun rest g'' hrest => ?_)
        exact Runs.pure (.next h (by simpa using hjump) hrest)

/-- A step in a frame of its own follows the nested effect. -/
theorem nests_follows (hx : Follows E room x one) (hone : one.Advancing) :
    Follows E (room + 1) (inFrame (nested x)) (Nests one) := by
  intro g hg
  apply inFrame_runs
  apply nested_runs
  refine (hx { g with scope := g.scope.enter, stmtDepth := g.stmtDepth + 1 } hg.enter).mono
    fun ns g' h => ?_
  have hin := hone hg.enter.isOpen h
  have hleave : g'.view.scope.leave = .ok g.scope := hin.scope.leave_enter
  exact ⟨g.scope, hleave, Nests.of h hleave⟩

/-- A step inside a jump target follows the effect there. -/
theorem targets_follows (hx : Follows E room x one) (target : JumpTarget) :
    Follows E room (withTarget target x) (Targets one target) := by
  intro g hg
  apply withTarget_runs
  refine (hx { g with jumps := target :: g.jumps } (hg.target target)).mono fun ns g' h => ?_
  have htarget : Targets one target g.view ns { g'.view with jumps := g'.view.jumps.tail } := .of h
  exact htarget

variable [WordSource ρ]

/-- A block follows the effect of blocks. -/
theorem block_runs (hx : Follows E room x one) (hone : one.Advancing) {g : Generator ρ}
    (hg : Ready E (room + 1) g.view) :
    Runs E (block x) g fun n g' => ∃ body, n = .block body ∧ Blocks one g.view body g'.view := by
  have hmany : Follows E room (do
      let n ← draw fun env => Draw.range 1 (max env.config.maxBlockStmts 1)
      repeated x n) (Many one) := by
    intro g hg
    refine Runs.bind (draw_runs (Draw.range_gives (by omega)) fun n source _ => ?_)
    exact (repeated_follows hx hone n { g with source } hg).mono fun ns g' h => .of h
  unfold block
  refine Runs.bind ((nests_follows hmany (many_advances hone) g hg).mono fun ns g' h => ?_)
  exact Runs.pure ⟨ns, rfl, h⟩

/-- The body of a case follows the effect of such bodies. -/
theorem caseBody_follows (hx : Follows E room x one) (hone : one.Advancing) :
    Follows E (room + 1) (caseBody x) (CaseBody one) := by
  apply nests_follows
  · apply targets_follows
    intro g hg
    refine Runs.bind (draw_runs (Draw.range_gives (by omega)) fun n source hn => ?_)
    have hrun := repeated_follows hx hone n { g with source } hg
    refine Runs.bind (hrun.mono fun ns g' h => ?_)
    split
    · exact Runs.pure (.plain hn.2 h)
    · rename_i hjump
      have hg' := hg.advances (repeats_advances hone hg.isOpen h)
      refine Runs.bind (draw_runs (hg'.sound.chances.chance_gives "p_case_break"
        (by simp [Config.chances])) fun breaks source _ => ?_)
      apply Runs.pure
      split
      · exact .broken hn.2 h (by simpa using hjump)
      · exact .plain hn.2 h
  · exact targets_advances (caseStmts_advances hone)

/-! ## Statements -/

/-- A declaration of a variable follows the grammar. -/
theorem declare_runs {g : Generator ρ} (hg : Ready E room g.view) {t : Ty} (ht : t.Storable)
    (hwithin : t.Within g.symbols.classNames) :
    Runs E (declare t) g fun ns g' => Declares g.view ns g'.view := by
  unfold declare
  refine Runs.bind (freshVar_runs ?_)
  -- The value is drawn before the variable is in scope, so it cannot read it.
  have hs : ({ g with nextVar := g.nextVar + 1 } : Generator ρ).env.Drawable (Ty.ValuedIn E) E :=
    Env.Sound.valued hg.sound
  refine Runs.bind (Draws.from_state (firstValue_draws hs ht.proper.hasValues.valuedIn)
    fun x source hx => ?_)
  obtain ⟨s, hpush, -, -⟩ := Scope.push_grown hg.isOpen ("v" ++ toString g.nextVar) t
  refine Runs.bind (modifyScope_runs hpush ?_)
  have hdecl : Declares g.view [.assign (.var ("v" ++ toString g.view.nextVar) t) x]
      { g.view with nextVar := g.view.nextVar + 1, scope := s } := .of ht hwithin hx hpush
  exact Runs.pure hdecl

theorem declaration_follows : Follows E room (declaration : Build ρ (List Node)) Declares := by
  intro g hg
  unfold declaration
  refine Runs.bind (draw_runs (Draw.type_gives hg.sound.chances hg.attempts) fun t source ht => ?_)
  exact declare_runs (g := { g with source }) hg ht.1 ht.2

variable {inner : Option Effect}

/-- An assignment follows the grammar. -/
theorem assignment_follows : Follows E room (assignment : Build ρ (List Node)) (Emits inner) := by
  intro g hg
  unfold assignment
  refine Runs.bind (draw_runs (Draw.place?_gives hg.sound hg.visible_proper) fun p? source hp => ?_)
  cases p? with
  | none =>
      refine (declaration_follows { g with source } hg).mono fun ns g' h => ?_
      exact .declaration h
  | some p =>
      obtain ⟨t, hplace, ht⟩ := hp p rfl
      have hsound : g.env.Sound E := hg.sound
      refine Draws.from_state (g := { g with source }) (assignTo_draws hsound ht hplace)
        fun ns source hns => ?_
      exact Emits.assignment (g := g.view) hplace hns

/-- A condition over blocks follows the grammar. -/
theorem condition_follows (hx : Follows E room x one) (hone : one.Advancing) :
    Follows E (room + 1) (condition x) (Emits (some one)) := by
  intro g hg
  unfold condition
  refine Runs.bind (Draws.from_state (choose_draws (Env.Sound.valued hg.sound) .cond)
    fun cond source hcond => ?_)
  refine Runs.bind ((block_runs hx hone (g := { g with source }) hg).mono fun b g' hb => ?_)
  obtain ⟨body, rfl, hbody⟩ := hb
  have hg' : Ready E (room + 1) g'.view := hg.advances ((blocks_keeps hone hbody).advances hg.isOpen)
  refine Runs.bind (draw_runs (hg'.sound.chances.chance_gives "p_else"
    (by simp [Config.chances])) fun hasAlternative source _ => ?_)
  split
  · refine Runs.bind ((block_runs hx hone (g := { g' with source }) hg').mono fun b g'' hb => ?_)
    obtain ⟨other, rfl, hother⟩ := hb
    exact Runs.pure (.ifElse rfl hcond hbody hother)
  · exact Runs.pure (.ifThen rfl hcond hbody)

/-- A block inside a loop follows the effect there. -/
theorem loopBody_runs (hx : Follows E room x one) (hone : one.Advancing) {g : Generator ρ}
    (hg : Ready E (room + 1) g.view) :
    Runs E (withTarget .loop (block x)) g fun n g' =>
      ∃ body, n = .block body ∧ Targets (Blocks one) .loop g.view body g'.view := by
  apply withTarget_runs
  refine (block_runs hx hone (g := { g with jumps := .loop :: g.jumps }) (hg.target .loop)).mono
    fun n g' h => ?_
  obtain ⟨body, rfl, hbody⟩ := h
  have htarget : Targets (Blocks one) .loop g.view body
      { g'.view with jumps := g'.view.jumps.tail } := .of hbody
  exact ⟨body, rfl, htarget⟩

/-- A loop follows the grammar. -/
theorem loop_follows (hx : Follows E room x one) (hone : one.Advancing) :
    Follows E (room + 1) (loop x) (Emits (some one)) := by
  intro g hg
  unfold loop
  -- The counter is taken but never pushed: no statement of the body can assign it.
  refine Runs.bind (freshCounter_runs ?_)
  refine Runs.bind (draw_runs (Draw.range_gives hg.config.loopBound) fun limit source hlimit => ?_)
  dsimp only
  refine Runs.bind ((loopBody_runs hx hone
    (g := { g with nextCounter := g.nextCounter + 1, source }) hg.stepCounter).mono
    fun n g' h => ?_)
  obtain ⟨body, rfl, hbody⟩ := h
  refine Runs.bind (draw_runs Draw.half_gives fun checksFirst source _ => ?_)
  apply Runs.pure
  split
  · exact Emits.whileLoop (g := g.view) rfl hlimit.1 hlimit.2 hbody
  · exact Emits.doWhile (g := g.view) rfl hlimit.1 hlimit.2 hbody

/-- The cases of a switch follow the grammar. -/
theorem casesOf_follows (hx : Follows E room x one) (hone : one.Advancing) {t : Ty} (ht : TagType t) :
    ∀ n seen, Follows E (room + 1) (casesOf x t n seen) (Cases one t n seen)
  | 0, seen => fun _ _ => Runs.pure (.none _ seen)
  | n + 1, seen => by
      intro g hg
      rw [casesOf]
      have hchances : g.env.config.ChancesIn E := hg.sound.chances
      refine Runs.bind (draw_runs (Draw.constant_gives hchances ht.isConstInitializable ht.proper)
        fun label source hlabel => ?_)
      obtain ⟨l, rfl⟩ := ht.literal hlabel.constant
      -- The label is a literal, so it has a value to compare with those before.
      have hconst : (Node.lit l).constant = .ok (some l) := by
        cases l <;> rfl
      rw [hconst]
      refine Runs.bind (Runs.ok rfl ?_)
      dsimp only
      split
      · rename_i hseen
        refine (casesOf_follows hx hone ht n seen { g with source } hg).mono fun ns g' h => ?_
        exact .repetition hlabel hseen h
      · rename_i hseen
        have hbody := caseBody_follows hx hone { g with source } hg
        refine Runs.bind (hbody.mono fun body g' h => ?_)
        have hg' : Ready E (room + 1) g'.view :=
          hg.advances ((caseBody_keeps hone h).advances hg.isOpen)
        refine Runs.bind ((casesOf_follows hx hone ht n _ g' hg').mono fun rest g'' hrest => ?_)
        exact Runs.pure (.case hlabel (by simpa using hseen) h hrest)

/-- A switch follows the grammar. -/
theorem switch_follows (hx : Follows E room x one) (hone : one.Advancing) :
    Follows E (room + 1) (switch x) (Emits (some one)) := by
  intro g hg
  unfold switch
  have hchances : g.env.config.ChancesIn E := hg.sound.chances
  refine Runs.bind (draw_runs (Draw.tagType_gives hchances hg.attempts) fun t source h => ?_)
  obtain ⟨ht, hwithin⟩ := h
  have hsound : g.env.Sound E := hg.sound
  refine Runs.bind (Draws.from_state (g := { g with source }) (proper_draws hsound ht.proper)
    fun tag source htag => ?_)
  refine Runs.bind (draw_runs (Draw.range_gives (by omega)) fun n source hn => ?_)
  have hcases := casesOf_follows hx hone ht n [] { g with source } hg
  refine Runs.bind (hcases.mono fun cases g' hcases => ?_)
  have hg' : Ready E (room + 1) g'.view := hg.advances ((cases_keeps hone hcases).advances hg.isOpen)
  refine Runs.bind (draw_runs (hg'.sound.chances.chance_gives "p_default_case"
    (by simp [Config.chances])) fun hasDefault source _ => ?_)
  dsimp only
  split
  · have hbody := caseBody_follows hx hone { g' with source } hg'
    refine Runs.bind (hbody.mono fun body g'' h => ?_)
    exact Runs.bind (Runs.pure (Runs.pure (.switch rfl ht hwithin htag hn.1 hn.2 hcases (.body h))))
  · exact Runs.bind (Runs.pure (Runs.pure (.switch rfl ht hwithin htag hn.1 hn.2 hcases (.none _))))

/-! ## Statements of every kind -/

/-- What builds the statements nested in a statement follows their effect, or there is no room for
any. -/
inductive InnerFollows (E : Fault → Prop) (x : Build ρ (List Node)) :
    Nat → Option Effect → Prop where
  | none : InnerFollows E x 0 none
  | some {room : Nat} {one : Effect} : Follows E room x one → one.Advancing →
      InnerFollows E x (room + 1) (some one)

/-- What stands for a jump follows the grammar: it is a condition where there is room for its
blocks. -/
theorem jumpSubstitute_follows (hinner : InnerFollows E x room inner) :
    Follows E room (jumpSubstitute x) (Emits inner) := by
  intro g hg
  refine Runs.bind (get_runs ?_)
  have hroom : g.config.maxStmtDepth - g.stmtDepth = room := hg.room
  cases hinner with
  | none =>
      rw [if_neg (by omega)]
      exact (declaration_follows g hg).mono fun _ _ h => .declaration h
  | some hx hone =>
      rw [if_pos (by omega)]
      exact condition_follows hx hone g hg

/-- A break follows the grammar. -/
theorem breakJump_follows (hinner : InnerFollows E x room inner) :
    Follows E room (breakJump x) (Emits inner) := by
  intro g hg
  unfold breakJump
  refine Runs.bind (get_runs ?_)
  split
  · rename_i hjumps
    exact Runs.pure (.breakJump (by simp [Generator.view, hjumps]))
  · exact jumpSubstitute_follows hinner g hg

/-- A continue follows the grammar. -/
theorem continueJump_follows (hinner : InnerFollows E x room inner) :
    Follows E room (continueJump x) (Emits inner) := by
  intro g hg
  unfold continueJump
  refine Runs.bind (get_runs ?_)
  split
  · rename_i hjumps
    exact Runs.pure (.continueJump (by simp [Generator.view, hjumps]))
  · exact jumpSubstitute_follows hinner g hg

/-- A kind that holds other statements follows the grammar where there is room for them. -/
theorem nesting_follows (hx : Follows E room x one) (hone : one.Advancing) {kind : StmtKind}
    (hkind : kind.nests = true) : Follows E (room + 1) (ofKind x kind) (Emits (some one)) := by
  cases kind with
  | block =>
      intro g hg
      refine Runs.bind ((block_runs hx hone hg).mono fun b g' h => ?_)
      obtain ⟨body, rfl, hbody⟩ := h
      exact Runs.pure (.block rfl hbody)
  | condition => exact condition_follows hx hone
  | loop => exact loop_follows hx hone
  | switch => exact switch_follows hx hone
  | _ => cases hkind

/-- A kind that holds no other statements follows the grammar, a return where it is nested. -/
theorem simple_runs (hinner : InnerFollows E x room inner) {kind : StmtKind} {g : Generator ρ}
    (hg : Ready E room g.view) (hkind : kind.nests = false)
    (hreturn : kind = .returnJump → 0 < g.stmtDepth) :
    Runs E (ofKind x kind) g fun ns g' => Emits inner g.view ns g'.view := by
  have hsound : g.env.Sound E := hg.sound
  cases kind with
  | declaration => exact (declaration_follows g hg).mono fun _ _ h => .declaration h
  | assignment => exact assignment_follows g hg
  | dump =>
      refine Runs.bind (Draws.from_state (dump_draws hsound hg.attempts) fun n source hn => ?_)
      exact Runs.pure (.dump (g := g.view) hn)
  | echo =>
      refine Runs.bind (Draws.from_state (echo_draws hsound) fun n source hn => ?_)
      obtain ⟨s, rfl, hs⟩ := hn
      exact Runs.pure (.echo (g := g.view) hs)
  | voidCall =>
      refine Runs.bind (Draws.from_state (voidCall_draws hsound hg.attempts) fun n source hn => ?_)
      rcases hn with ⟨f, hf, hresult, hcall⟩ | hn
      · exact Runs.pure (.voidCall (g := g.view) hf hresult hcall)
      · exact Runs.pure (.dump (g := g.view) hn)
  | breakJump => exact breakJump_follows hinner g hg
  | continueJump => exact continueJump_follows hinner g hg
  | returnJump =>
      refine Runs.bind (get_runs ?_)
      refine Runs.bind (Draws.from_state (returnOf_draws hsound hg.result) fun n source hn => ?_)
      exact Runs.pure (.returnJump (g := g.view) (hreturn rfl) hn)
  | block | condition | loop | switch => cases hkind

/-- One statement follows the grammar if what builds the nested ones does: its kind is one that
can be drawn with the room there is. -/
theorem stmtWith_follows (hinner : InnerFollows E x room inner) :
    Follows E room (stmtWith x) (Emits inner) := by
  intro g hg
  unfold stmtWith
  refine Runs.bind (get_runs ?_)
  refine Runs.bind (draw_runs (Draw.stmtKind_allowed hg.attempts _ _ _) fun kind source h => ?_)
  obtain ⟨hnests, hreturn⟩ := h
  cases hkind : kind.nests with
  | true =>
      have hroom : 0 < room := hg.room ▸ hnests hkind
      cases hinner with
      | none => exact absurd hroom (Nat.lt_irrefl 0)
      | some hx hone => exact nesting_follows hx hone hkind { g with source } hg
  | false =>
      exact simple_runs hinner (g := { g with source }) hg hkind fun h =>
        of_decide_eq_true (hreturn h)

/-- One statement follows the grammar on every stack with more levels than there is room. -/
theorem stmt_follows : ∀ {stack room : Nat}, room < stack →
    Follows E room (stmt stack : Build ρ (List Node)) (Statement room)
  | _ + 1, 0, _ => stmtWith_follows .none
  | _ + 1, room + 1, h =>
      stmtWith_follows (.some (stmt_follows (Nat.lt_of_succ_lt_succ h)) (statement_advances room))

/-- A function body follows the grammar on every stack with more levels than there is room. -/
theorem body_follows {stack : Nat} (hstack : room < stack) :
    Follows E room (body stack : Build ρ (List Node)) Body := by
  intro g hg
  unfold body
  refine Runs.bind (draw_runs (hg.config.range_gives "var_decls" (by simp [Config.ranges]))
    fun n source _ => ?_)
  have hdecls := repeated_follows declaration_follows declares_advances n { g with source } hg
  refine Runs.bind (hdecls.mono fun decls g₁ hdecls => ?_)
  have hg₁ : Ready E room g₁.view :=
    hg.advances (repeats_advances declares_advances hg.isOpen hdecls)
  refine Runs.bind (draw_runs (hg₁.config.range_gives "stmts" (by simp [Config.ranges]))
    fun m source _ => ?_)
  have hstmts := repeated_follows (stmt_follows hstack) (statement_advances room) m
    { g₁ with source } hg₁
  refine Runs.bind (hstmts.mono fun stmts g₂ hstmts => ?_)
  have hg₂ : Ready E room g₂.view :=
    hg₁.advances (repeats_advances (statement_advances _) hg₁.isOpen hstmts)
  refine Runs.bind (get_runs ?_)
  have hstmts : Repeats (Statement g₁.view.room) m g₁.view stmts g₂.view := by
    rw [hg₁.room]
    exact hstmts
  dsimp only
  split
  · rename_i hvoid
    exact Runs.pure (.void hdecls hstmts hvoid)
  · rename_i hvoid
    have hvoid : g₂.view.currentResult.isVoid = false := eq_false_of_ne_true hvoid
    refine Runs.bind (Draws.from_state (returnOf_draws hg₂.sound hg₂.result)
      fun last source hlast => ?_)
    exact Runs.pure (.value hdecls hstmts hvoid hlast)

end Build

end TypedPhp
