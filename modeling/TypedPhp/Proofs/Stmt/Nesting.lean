import TypedPhp.Proofs.Stmt.Draws
import TypedPhp.Proofs.Stmt.Footprint
import TypedPhp.Proofs.Stmt.Sites

set_option autoImplicit false

/-!
# Nesting of statements

Blocks and the bodies of cases and defaults are levels. A statement that is built at some depth is
within as many levels (`Node.Within`) as the depth is below its limit, from every state and on every
stack. Two things see to it: at the limit the weights leave no kind that holds statements, and what
stands for a jump without target is a declaration then. The depth is counted up for what stands in a
block or a case and counted down after it, so it is the same for every statement of a list. A
function starts at depth zero, and no statement of it stands below more levels than the
configuration allows (`Build.body_nesting`).
-/

namespace TypedPhp

/-! ## Levels -/

/-- The operators of the nodes that open a level. -/
def Op.isLevel : Op → Bool
  | .block | .case | .defaultCase => true
  | _ => false

namespace Node

/-- A statement stands in a statement list, below the statements that hold it, outermost first. -/
inductive StandsIn : List Node → List Node → Node → Prop where
  | here {ns : List Node} {s : Node} : s ∈ ns → StandsIn ns [] s
  | inside {ns body above : List Node} {n s : Node} : n ∈ ns → body ∈ n.bodies →
      StandsIn body above s → StandsIn ns (n :: above) s

/-- A statement is within some levels. What holds other statements takes at least one: it opens a
level, or the statements in it do. -/
inductive Within : Nat → Node → Prop where
  | simple {r : Nat} {n : Node} : n.op.holdsStmts = false → Within r n
  | level {r : Nat} {n : Node} : n.op.isLevel = true →
      (∀ body ∈ n.bodies, ∀ s ∈ body, Within r s) → Within (r + 1) n
  | holder {r : Nat} {n : Node} : n.op.isLevel = false →
      (∀ body ∈ n.bodies, ∀ s ∈ body, Within (r + 1) s) → Within (r + 1) n

variable {ns above : List Node} {s : Node} {r : Nat}

/-- Below no more levels stand the statements of a list than its statements are within. -/
theorem StandsIn.countP_le (h : StandsIn ns above s) (hns : ∀ n ∈ ns, Within r n) :
    above.countP (·.op.isLevel) ≤ r := by
  induction h generalizing r with
  | here _ => exact Nat.zero_le r
  | @inside ns body above n s hn hbody _ ih =>
      cases hns n hn with
      | simple hop =>
          rw [bodies_of_op hop] at hbody
          cases hbody
      | level hop hin =>
          rw [List.countP_cons_of_pos (by simp [hop])]
          exact Nat.succ_le_succ (ih (hin body hbody))
      | holder hop hin =>
          rw [List.countP_cons_of_neg (by simp [hop])]
          exact ih (hin body hbody)

/-- Within no levels, no statement holds others. -/
theorem StandsIn.simple (h : StandsIn ns above s) (hns : ∀ n ∈ ns, Within 0 n) :
    s.op.holdsStmts = false := by
  induction h with
  | here hs =>
      cases hns _ hs with
      | simple hop => exact hop
  | inside hn hbody _ _ =>
      cases hns _ hn with
      | simple hop =>
          rw [bodies_of_op hop] at hbody
          cases hbody

end Node

/-- Every statement of a list is within some levels. -/
def ListWithin (r : Nat) (ns : List Node) : Prop := ∀ n ∈ ns, n.Within r

/-- No statement of a list holds others. -/
def ListSimple (ns : List Node) : Prop := ∀ n ∈ ns, n.op.holdsStmts = false

theorem ListSimple.within {ns : List Node} (h : ListSimple ns) (r : Nat) : ListWithin r ns :=
  fun n hn => .simple (h n hn)

theorem ListWithin.single {r : Nat} {n : Node} (h : n.Within r) : ListWithin r [n] :=
  List.forall_mem_singleton.2 h

theorem ListWithin.append {r : Nat} {ns ms : List Node} (h : ListWithin r ns)
    (h' : ListWithin r ms) : ListWithin r (ns ++ ms) :=
  fun n hn => (List.mem_append.1 hn).elim (h n) (h' n)

theorem ListWithin.block {r : Nat} {ns : List Node} (h : ListWithin r ns) :
    (Node.block ns).Within (r + 1) :=
  .level rfl (List.forall_mem_singleton.2 h)

/-! ## Steps at a depth -/

/-- Steps of every size leave the depth of statements and the configuration as they found them. -/
def sameDepth {ρ : Type} : Footprint ρ :=
  .leaving (fun g => (g.stmtDepth, g.config)) (fun _ _ => rfl) (fun _ _ => rfl)
    (fun _ _ _ _ => rfl)
    (fun g g' _ _ h => by
      obtain ⟨hdepth, hconfig⟩ := Prod.mk.inj h
      simp [hdepth, hconfig])
    (fun _ _ _ h => h)

/-- A state in which statements are built at a depth, below a limit of the configuration. -/
structure Generator.At {ρ : Type} (limit depth : Nat) (g : Generator ρ) : Prop where
  limit : g.config.maxStmtDepth = limit
  depth : g.stmtDepth = depth

theorem Generator.At.room_eq {ρ : Type} {limit depth : Nat} {g : Generator ρ}
    (h : g.At limit depth) : g.room = limit - depth := by
  rw [Generator.room, h.limit, h.depth]

namespace Build

variable {ρ α β : Type} {limit depth r : Nat}

/-- What a step returns satisfies `P`, from every state in which `I` holds, and `I` holds again
after it. -/
structure Yields (I : Generator ρ → Prop) (P : α → Prop) (x : Build ρ α) : Prop where
  of_ok : ∀ {g : Generator ρ} {a : α} {g' : Generator ρ}, I g → x g = .ok (a, g') → P a ∧ I g'

namespace Yields

variable {I : Generator ρ → Prop} {x : Build ρ α} {P P' : α → Prop} {R : β → Prop}

theorem any (x : Build ρ α) : Yields (fun _ => True) (fun _ => True) x :=
  ⟨fun _ _ => ⟨trivial, trivial⟩⟩

theorem pure {a : α} (h : P a) : Yields I P (Pure.pure a : Build ρ α) := by
  constructor
  rintro g b g' hg ⟨⟩
  exact ⟨h, hg⟩

theorem throw (f : Fault) : Yields I P (MonadExcept.throw f : Build ρ α) := ⟨nofun⟩

theorem bind {k : α → Build ρ β} (hx : Yields I P x) (hk : ∀ a, P a → Yields I R (k a)) :
    Yields I R (x >>= k) := by
  constructor
  intro g b g' hg h
  obtain ⟨a, g₁, ha, hb⟩ := Runs.ok_of_bind h
  obtain ⟨hP, hg₁⟩ := hx.of_ok hg ha
  exact (hk a hP).of_ok hg₁ hb

theorem get_bind {k : Generator ρ → Build ρ β} (hk : ∀ g, I g → Yields I R (k g)) :
    Yields I R (get >>= k) :=
  ⟨fun hg h => (hk _ hg).of_ok hg h⟩

theorem mono (h : Yields I P x) (hP : ∀ a, P a → P' a) : Yields I P' x :=
  ⟨fun hg hx => (h.of_ok hg hx).imp_left (hP _)⟩

theorem ite {c : Prop} [Decidable c] {y : Build ρ α} (hx : c → Yields I P x)
    (hy : ¬ c → Yields I P y) : Yields I P (if c then x else y) := by
  split
  · rename_i hc
    exact hx hc
  · rename_i hc
    exact hy hc

theorem runs (h : Yields I P x) {g : Generator ρ} (hg : I g) :
    Runs (fun _ => True) x g fun a g' => P a ∧ I g' :=
  ⟨h.of_ok hg, fun _ => trivial⟩

theorem of_runs (h : ∀ g, I g → Runs (fun _ => True) x g fun a g' => P a ∧ I g') : Yields I P x :=
  ⟨fun hg hrun => (h _ hg).of_ok hrun⟩

/-! ### Steps at a depth -/

/-- A step that leaves the depth and the configuration as they are. -/
theorem same (hx : Respects sameDepth.inner x) (h : Yields (fun _ => True) P x) :
    Yields (Generator.At limit depth) P x := by
  constructor
  intro g a g' hg hrun
  obtain ⟨hdepth, hconfig⟩ := Prod.mk.inj (hx.of_ok hrun)
  refine ⟨(h.of_ok trivial hrun).1, ?_, hdepth.trans hg.depth⟩
  rw [hconfig]
  exact hg.limit

theorem after {k : α → Build ρ β} (hx : Respects sameDepth.inner x)
    (hk : ∀ a, Yields (Generator.At limit depth) R (k a)) :
    Yields (Generator.At limit depth) R (x >>= k) :=
  (same hx (any x)).bind fun a _ => hk a

theorem inFrame (h : Yields (Generator.At limit depth) P x) :
    Yields (Generator.At limit depth) P (inFrame x) := by
  refine of_runs fun g hg => inFrame_runs_any ?_
  have hin : ({ g with scope := g.scope.enter } : Generator ρ).At limit depth := ⟨hg.limit, hg.depth⟩
  exact (h.runs hin).mono fun a g' ha s _ => ⟨ha.1, ha.2.limit, ha.2.depth⟩

/-- A step one level deeper is at the next depth, and what follows it at this one again. -/
theorem nested (h : Yields (Generator.At limit (depth + 1)) P x) :
    Yields (Generator.At limit depth) P (nested x) := by
  refine of_runs fun g hg => nested_runs ?_
  have hin : ({ g with stmtDepth := g.stmtDepth + 1 } : Generator ρ).At limit (depth + 1) :=
    ⟨hg.limit, congrArg (· + 1) hg.depth⟩
  exact (h.runs hin).mono fun a g' ha => ⟨ha.1, ha.2.limit, congrArg (· - 1) ha.2.depth⟩

/-- A step inside a new jump target. -/
theorem withTarget {target : JumpTarget} (h : Yields (Generator.At limit depth) P x) :
    Yields (Generator.At limit depth) P (withTarget target x) := by
  refine of_runs fun g hg => withTarget_runs ?_
  have hin : ({ g with jumps := target :: g.jumps } : Generator ρ).At limit depth :=
    ⟨hg.limit, hg.depth⟩
  exact (h.runs hin).mono fun a g' ha => ⟨ha.1, ha.2.limit, ha.2.depth⟩

end Yields

/-! ## Simple statements -/

/-- What a step returns holds no statements, from every state. -/
abbrev Simple (x : Build ρ Node) : Prop :=
  Yields (fun _ => True) (fun n => n.op.holdsStmts = false) x

section Simple

variable [WordSource ρ]

/-- A call holds no statements, whatever the table. -/
theorem callIn_simple (choose : Chooser ρ) (id : Nat) : Simple (callIn choose id) := by
  refine (Yields.any _).bind fun g _ => (Yields.any _).bind fun f _ => ?_
  refine (Yields.any _).bind fun args _ => ?_
  split
  · exact (Yields.any _).bind fun object _ => .pure rfl
  · exact .pure rfl

/-- A call with a given result holds no statements. -/
theorem callOfType_simple (t : Ty) :
    Yields (fun _ => True) (fun n? => ∀ n, n? = some n → n.op.holdsStmts = false)
      (callOfType t : Build ρ (Option Node)) := by
  refine (Yields.any _).bind fun g _ => ?_
  refine (Yields.any _).bind fun g' _ => (Yields.any _).bind fun ids _ => ?_
  split
  · exact .pure nofun
  · refine (Yields.any _).bind fun id _ => ?_
    exact (callIn_simple _ id).bind fun n hn => .pure (forall_of_some hn)

/-- A dump is a call. -/
theorem dump_simple : Simple (dump : Build ρ Node) := by
  refine (Yields.any _).bind fun wants _ => (Yields.any _).bind fun g _ => ?_
  dsimp only
  split
  · refine (Yields.any _).bind fun t _ => ?_
    exact (Yields.any _).bind fun x _ => .pure rfl
  · exact (Yields.any _).bind fun x _ => .pure rfl

theorem echo_simple : Simple (echo : Build ρ Node) := (Yields.any _).bind fun _ _ => .pure rfl

/-- A call of a function without result is simple, and so is the dump in its place. -/
theorem voidCall_simple : Simple (voidCall : Build ρ Node) := by
  refine (callOfType_simple .void).bind fun n? hn => ?_
  cases n? with
  | some n => exact .pure (hn n rfl)
  | none => exact dump_simple

theorem returnOf_simple (result : Ty) : Simple (returnOf result : Build ρ Node) :=
  .ite (fun _ => .pure rfl) fun _ => (Yields.any _).bind fun _ _ => .pure rfl

/-- The statements of an assignment are simple. -/
theorem assignTo_simple (place : Node) :
    Yields (fun _ => True) ListSimple (assignTo place : Build ρ (List Node)) := by
  have hsingle : ∀ {n : Node}, n.op.holdsStmts = false → ListSimple [n] :=
    fun hop => List.forall_mem_singleton.2 hop
  -- The place may be copied into itself still, and a constant may stand in for it.
  have hplain : ∀ t, Yields (fun _ => True) ListSimple (assignValue place t : Build ρ (List Node)) :=
    fun t => (Yields.any _).bind fun rhs _ => .ite
      (fun _ => .ite (fun _ => (Yields.any _).bind fun c _ => .pure (hsingle rfl))
        fun _ => .pure nofun)
      fun _ => .pure (hsingle rfl)
  have hrest : ∀ isCompound : Bool, Yields (fun _ => True) ListSimple (if isCompound then do
        let rhs ← value (place.type.getD .mixed)
        let op ← draw fun _ => Draw.pick (Draw.compoundOps (place.type.getD .mixed))
        return [.assignModify op place rhs]
      else assignValue place (place.type.getD .mixed) : Build ρ (List Node)) :=
    fun _ => .ite (fun _ => (Yields.any _).bind fun rhs _ => (Yields.any _).bind fun op _ =>
      .pure (hsingle rfl)) fun _ => hplain _
  exact .ite (fun _ => (Yields.any _).bind fun b _ => hrest b)
    fun _ => (Yields.any _).bind fun b _ => hrest b

theorem declaration_simple :
    Yields (fun _ => True) ListSimple (declaration : Build ρ (List Node)) :=
  (Yields.any _).bind fun _ _ => (Yields.any _).bind fun _ _ => (Yields.any _).bind fun _ _ =>
    (Yields.any _).bind fun _ _ => .pure (List.forall_mem_singleton.2 rfl)

/-- An assignment is simple, and so is the declaration in its place. -/
theorem assignment_simple :
    Yields (fun _ => True) ListSimple (assignment : Build ρ (List Node)) := by
  refine (Yields.any _).bind fun place? _ => ?_
  cases place? with
  | none => exact declaration_simple
  | some place => exact assignTo_simple place

end Simple

/-! ## Statements at a depth -/

section Statements

variable {one : Build ρ (List Node)}

/-- Repetitions of a step. -/
theorem repeated_within (hone : Yields (Generator.At limit depth) (ListWithin r) one) :
    ∀ n, Yields (Generator.At limit depth) (ListWithin r) (repeated one n)
  | 0 => .pure nofun
  | n + 1 => by
      rw [repeated]
      refine hone.bind fun stmts hstmts => .ite (fun _ => .pure hstmts) fun _ => ?_
      exact (repeated_within hone n).bind fun rest hrest => .pure (hstmts.append hrest)

variable [WordSource ρ]

omit [WordSource ρ] in
/-- A simple statement that changes the source only. -/
theorem single_within {x : Build ρ Node} (hsource : SourceOnly x) (hx : Simple x) :
    Yields (Generator.At limit depth) (ListWithin r) (do
      let n ← x
      return [n]) :=
  (Yields.same (sameDepth.source hsource) hx).bind fun _ hn => .pure (.single (.simple hn))

omit [WordSource ρ] in
theorem simple_within {x : Build ρ (List Node)} (hsame : Respects sameDepth.inner x)
    (hx : Yields (fun _ => True) ListSimple x) :
    Yields (Generator.At limit depth) (ListWithin r) x :=
  (Yields.same hsame hx).mono fun _ h => h.within r

variable (hone : Yields (Generator.At limit (depth + 1)) (ListWithin r) one)

include hone

/-- A block takes one level more than its statements. -/
theorem block_within : Yields (Generator.At limit depth) (Node.Within (r + 1)) (block one) := by
  have hstmts : Yields (Generator.At limit (depth + 1)) (ListWithin r) (do
      let n ← draw fun env => Draw.range 1 (max env.config.maxBlockStmts 1)
      repeated one n) :=
    .after (sameDepth.draw _) fun n => repeated_within hone n
  exact hstmts.nested.inFrame.bind fun stmts h => .pure h.block

/-- A condition is within the levels of its blocks. -/
theorem condition_within :
    Yields (Generator.At limit depth) (ListWithin (r + 1)) (condition one) := by
  unfold condition
  refine .after (sameDepth.source (.choose .cond)) fun cond => ?_
  refine (block_within hone).bind fun body hbody => ?_
  refine .after (sameDepth.draw _) fun hasAlternative => .ite (fun _ => ?_) fun _ => ?_
  · refine (block_within hone).bind fun other hother => .pure (.single (.holder rfl ?_))
    exact forall_mem_pair (ListWithin.single hbody) (ListWithin.single hother)
  · refine .pure (.single (.holder rfl ?_))
    exact List.forall_mem_singleton.2 (ListWithin.single hbody)

/-- A loop is within the levels of its block. -/
theorem loop_within : Yields (Generator.At limit depth) (ListWithin (r + 1)) (loop one) := by
  have hcounter : Respects (sameDepth (ρ := ρ)).inner freshCounter :=
    .of_runs fun g => freshCounter_runs (sameDepth.counter g)
  unfold loop
  refine .after hcounter fun counter => .after (sameDepth.draw _) fun limit => ?_
  refine (block_within hone).withTarget.bind fun body hbody => ?_
  refine .after (sameDepth.draw _) fun checksFirst => .pure ?_
  refine forall_mem_pair (.simple rfl) ?_
  split
  · exact .holder rfl (List.forall_mem_singleton.2 (ListWithin.single hbody))
  · exact .holder rfl (List.forall_mem_singleton.2 (ListWithin.single hbody))

/-- The statements of a case. -/
theorem caseBody_within : Yields (Generator.At limit depth) (ListWithin r) (caseBody one) := by
  have hstmts : Yields (Generator.At limit (depth + 1)) (ListWithin r) (do
      let n ← draw fun _ => Draw.range 0 2
      let stmts ← repeated one n
      if endsInJump stmts then return stmts
      else do
        let breaks ← draw fun env => Draw.chance env.config.caseBreak
        return if breaks then stmts ++ [.ofArgs .breakJump []] else stmts) := by
    refine .after (sameDepth.draw _) fun n => (repeated_within hone n).bind fun stmts hstmts => ?_
    refine .ite (fun _ => .pure hstmts) fun _ => .after (sameDepth.draw _) fun breaks => .pure ?_
    split
    · exact hstmts.append (.single (.simple rfl))
    · exact hstmts
  exact hstmts.withTarget.nested.inFrame

/-- A case takes one level more than its statements. -/
theorem casesOf_within (t : Ty) :
    ∀ n seen, Yields (Generator.At limit depth) (ListWithin (r + 1)) (casesOf one t n seen)
  | 0, _ => .pure nofun
  | n + 1, seen => by
      rw [casesOf]
      refine .after (sameDepth.draw _) fun label => .after (sameDepth.lift _) fun l? => ?_
      cases l? with
      | none => exact .throw _
      | some l =>
          refine .ite (fun _ => casesOf_within t n seen) fun _ => ?_
          refine (caseBody_within hone).bind fun body hbody => ?_
          refine (casesOf_within t n _).bind fun rest hrest => .pure ?_
          refine List.forall_mem_cons.2 ⟨.level rfl ?_, hrest⟩
          exact List.forall_mem_singleton.2 hbody

/-- A switch is within the levels of its cases. -/
theorem switch_within : Yields (Generator.At limit depth) (ListWithin (r + 1)) (switch one) := by
  unfold switch
  refine .after (sameDepth.draw _) fun t => .after (sameDepth.source (.value t)) fun tag => ?_
  refine .after (sameDepth.draw _) fun n => ?_
  refine (casesOf_within hone t n []).bind fun cases hcases => ?_
  -- Every case, and the default, is a list of its own inside the switch.
  have hswitch : ∀ default, ListWithin (r + 1) default → ListWithin (r + 1)
      [.ofArgs .switch (tag :: cases ++ default)] := by
    intro default hdefault
    refine .single (.holder rfl fun body hbody => ?_)
    obtain ⟨c, hc, rfl⟩ := List.mem_map.1 hbody
    exact ListWithin.single (hcases.append hdefault c hc)
  refine .after (sameDepth.draw _) fun hasDefault => .ite (fun _ => ?_) fun _ => ?_
  · refine (caseBody_within hone).bind fun body hbody => .pure (hswitch _ (.single ?_))
    exact .level rfl (List.forall_mem_singleton.2 hbody)
  · exact .pure (hswitch [] nofun)

end Statements

/-! ## Statements of every kind -/

section Kinds

variable [WordSource ρ] {one : Build ρ (List Node)}

theorem declaration_within :
    Yields (Generator.At limit depth) (ListWithin r) (declaration : Build ρ (List Node)) :=
  simple_within (.of_runs fun g => (sameDepth.declaration.runs g)) declaration_simple

/-- What a statement at a depth holds is within as many levels as the next depth is below the
limit. -/
abbrev Fitting (limit depth : Nat) (one : Build ρ (List Node)) : Prop :=
  Yields (Generator.At limit (depth + 1)) (ListWithin (limit - (depth + 1))) one

/-- What stands for a jump is a condition only where there is room for it. -/
theorem jumpSubstitute_within (hone : Fitting limit depth one) :
    Yields (Generator.At limit depth) (ListWithin (limit - depth)) (jumpSubstitute one) := by
  refine .get_bind fun g hg => .ite (fun hroom => ?_) fun _ => declaration_within
  have hlevels : limit - depth = limit - (depth + 1) + 1 := by
    rw [hg.limit, hg.depth] at hroom
    omega
  rw [hlevels]
  exact condition_within hone

/-- A kind that holds statements is within as many levels as there is room for, if there is any. -/
theorem nesting_within (hone : Fitting limit depth one) {kind : StmtKind}
    (hkind : kind.nests = true) (hroom : 0 < limit - depth) :
    Yields (Generator.At limit depth) (ListWithin (limit - depth)) (ofKind one kind) := by
  have hlevels : limit - depth = limit - (depth + 1) + 1 := by omega
  rw [hlevels]
  cases kind with
  | block => exact (block_within hone).bind fun b hb => .pure (.single hb)
  | condition => exact condition_within hone
  | loop => exact loop_within hone
  | switch => exact switch_within hone
  | _ => cases hkind

/-- A kind that holds no statements is within any number of levels, but for what stands for a
jump. -/
theorem other_within (hone : Fitting limit depth one) {kind : StmtKind}
    (hkind : kind.nests = false) :
    Yields (Generator.At limit depth) (ListWithin (limit - depth)) (ofKind one kind) := by
  cases kind with
  | declaration => exact declaration_within
  | assignment =>
      exact simple_within (.of_runs fun g => sameDepth.assignment.runs g) assignment_simple
  | dump => exact single_within .dump dump_simple
  | echo => exact single_within .echo echo_simple
  | voidCall => exact single_within .voidCall voidCall_simple
  | breakJump =>
      refine .get_bind fun g _ => ?_
      split
      · exact .pure (.single (.simple rfl))
      · exact jumpSubstitute_within hone
  | continueJump =>
      refine .get_bind fun g _ => ?_
      split
      · exact .pure (.single (.simple rfl))
      · exact jumpSubstitute_within hone
  | returnJump => exact .get_bind fun g _ => single_within (.returnOf _) (returnOf_simple _)
  | block | condition | loop | switch => cases hkind

/-- A statement is within the levels that its depth is below the limit, on every stack: a kind
that holds statements is drawn only where there is room for it. -/
theorem stmt_within : ∀ stack depth, Yields (Generator.At limit depth) (ListWithin (limit - depth))
    (stmt stack : Build ρ (List Node))
  | 0, _ => .throw _
  -- The stack is what the induction is on; how many levels there may be is for the depth to say.
  | stack + 1, depth => by
      have hone : Fitting limit depth (stmt stack : Build ρ (List Node)) :=
        stmt_within stack (depth + 1)
      refine .get_bind fun g hg => ?_
      have hkind : Yields (Generator.At limit depth) (fun kind => kind.nests = true → 0 < g.room)
          (draw fun env => StmtKind.draw env.attempts g.room (0 < g.stmtDepth) :
            Build ρ StmtKind) := by
        refine .of_runs fun g₁ hg₁ => draw_runs (Draw.stmtKind_allowed trivial _ _ _) ?_
        exact fun kind source h => ⟨h.1, hg₁.limit, hg₁.depth⟩
      refine hkind.bind fun kind hnests => ?_
      cases hk : kind.nests with
      | true => exact nesting_within hone hk (hg.room_eq ▸ hnests hk)
      | false => exact other_within hone hk

end Kinds

/-! ## Bodies of functions -/

section Bodies

/-- A function is begun at depth zero. -/
theorem beginFunction_at {owner : Option ClassRef} {result : Ty} {g₀ g : Generator ρ}
    (h : beginFunction owner result g₀ = .ok ((), g)) : g.At g₀.config.maxStmtDepth 0 := by
  unfold beginFunction at h
  split at h
  · cases h
  · cases h
    exact ⟨rfl, rfl⟩

variable [WordSource ρ]

/-- A body that is built at a depth is within the levels that it is below the limit, on every
stack. -/
theorem body_within (stack : Nat) : Yields (Generator.At limit depth) (ListWithin (limit - depth))
    (body stack : Build ρ (List Node)) := by
  have hdeclaration : Yields (Generator.At limit depth) (ListWithin (limit - depth))
      (declaration : Build ρ (List Node)) := declaration_within
  unfold body
  refine .after (sameDepth.draw _) fun decls => ?_
  refine (repeated_within hdeclaration decls).bind fun declared hdeclared => ?_
  refine .after (sameDepth.draw _) fun n => ?_
  refine (repeated_within (stmt_within stack depth) n).bind fun stmts hstmts => ?_
  have hall := hdeclared.append hstmts
  refine .get_bind fun g _ => .ite (fun _ => .pure hall) fun _ => ?_
  refine (Yields.same (sameDepth.source (.returnOf _)) (returnOf_simple _)).bind fun last h => ?_
  exact .pure (hall.append (.single (.simple h)))

/-- No statement of a function stands below more levels than the configuration allows: after a
function was begun, whatever is in scope when its body is built, whatever the source yields and
however large the stack is. If no levels are allowed, no statement of it holds others. -/
theorem body_nesting {owner : Option ClassRef} {result : Ty} {g₀ g g' : Generator ρ}
    {ns : List Node} (hbegin : beginFunction owner result g₀ = .ok ((), g)) (scope : Scope)
    (source : ρ) (stack : Nat) (hbody : body stack { g with scope, source } = .ok (ns, g')) :
    (∀ above s, Node.StandsIn ns above s →
      above.countP (·.op.isLevel) ≤ g₀.config.maxStmtDepth) ∧
    (g₀.config.maxStmtDepth = 0 → ∀ above s, Node.StandsIn ns above s →
      s.op ∉ [.ifThen, .ifElse, .whileLoop, .doWhile, .switch, .block]) := by
  have hbegun := beginFunction_at hbegin
  have hat : ({ g with scope, source } : Generator ρ).At g₀.config.maxStmtDepth 0 :=
    ⟨hbegun.limit, hbegun.depth⟩
  have hwithin : ListWithin g₀.config.maxStmtDepth ns := ((body_within stack).of_ok hat hbody).1
  refine ⟨fun above s hs => hs.countP_le hwithin, fun hzero above s hs hop => ?_⟩
  rw [hzero] at hwithin
  have hsimple := hs.simple hwithin
  simp only [List.mem_cons, List.not_mem_nil, or_false] at hop
  rcases hop with hop | hop | hop | hop | hop | hop <;> simp [hop, Op.holdsStmts] at hsimple

end Bodies

/-- A function with a loop and a block, where one level is allowed. -/
theorem body_nesting_one : ∃ (g₀ g : Generator Scripted.Stream) (ns : List Node)
    (g' : Generator Scripted.Stream), g₀.config.maxStmtDepth = 1 ∧
      beginFunction none .void g₀ = .ok ((), g) ∧
      body 2 { g with scope := g.scope.enter, source := g.source } = .ok (ns, g') ∧
      ns.map Node.op = [.assign, .assign, .doWhile, .block] ∧
      ∀ above s, Node.StandsIn ns above s → above.countP (·.op.isLevel) ≤ 1 := by
  have hany : ((do
      beginFunction none .void
      inFrame (body 2) : Build Scripted.Stream (List Node))
        { Generator.bare 24 with
          scope := .empty
          config := { Config.standard with
            maxExprDepth := 0
            maxStmtDepth := 1
            varDecls := ⟨1, 1⟩
            stmts := ⟨2, 2⟩ } }).toOption.any
      (fun r => r.1.map Node.op == [.assign, .assign, .doWhile, .block]) = true := by
    decide +kernel
  obtain ⟨ns, _, hrun, hops⟩ := Runs.exists_of_check hany
  obtain ⟨⟨⟩, g, hbegin, hrun⟩ := Runs.ok_of_bind hrun
  obtain ⟨⟨⟩, g₁, henter, hrun⟩ := Runs.ok_of_bind hrun
  cases henter
  obtain ⟨_, g', hbody, hrun⟩ := Runs.ok_of_bind hrun
  obtain ⟨⟨⟩, _, -, hrun⟩ := Runs.ok_of_bind hrun
  cases hrun
  have hnesting := (body_nesting hbegin g.scope.enter g.source 2 hbody).1
  exact ⟨_, g, ns, g', rfl, hbegin, hbody, eq_of_beq hops, hnesting⟩

end Build

end TypedPhp
