import TypedPhp.Proofs.Program.Structure
import TypedPhp.Proofs.Stmt.Jumps
import TypedPhp.Proofs.Stmt.Targets

set_option autoImplicit false

/-!
# Jumps of a program

Every `break` of a function stands in a loop or a switch, and the innermost one around a `continue`
is a loop (`FuncDecl.JumpsLand`). No statement list goes on after a jump, and a function returns what
its result says on every way out (`FuncDecl.Concludes`). `Program.jumps_land` and
`Program.functions_conclude` say so of every function, method and constructor of a generated program.
-/

namespace TypedPhp

/-! ## Jumps of a function -/

/-- The jumps of a function land: a `break` stands in a loop or a switch of the function, and the
innermost one around a `continue` is a loop. -/
structure FuncDecl.JumpsLand (d : FuncDecl) : Prop where
  breaks : ∀ above n, Node.Occurs d.body above n → n.op = .breakJump →
    ∃ m ∈ above, m.op.target?.isSome = true
  continues : ∀ above n, Node.Occurs d.body above n → n.op = .continueJump →
    ∃ m, above.find? (·.op.target?.isSome) = some m ∧ m.op.isLoop = true

/-- A function comes to its conclusion: none of its statement lists goes on after a jump, and it
returns a value if it has a result, at its end in any case, and no value if it has none. -/
structure FuncDecl.Concludes (d : FuncDecl) : Prop where
  body : JumpsLast d.body
  lists : ∀ n ∈ Node.subtermsList d.body, ∀ l, n.stmts? = some l → JumpsLast l
  returns : d.type.result.isVoid = false → ∃ stmts x, d.body = stmts ++ [.ret x]
  voids : ∀ n ∈ Node.subtermsList d.body, n.op = .returnVoid → d.type.result.isVoid = true
  values : ∀ n ∈ Node.subtermsList d.body, n.op = .returnValue → d.type.result.isVoid = false

/-- The body of a function is controlled and ends as its result says. -/
structure FuncDecl.Flows (d : FuncDecl) : Prop where
  controlled : ∀ n ∈ d.body, n.Controlled d.type.result []
  ends : Ends d.type.result d.body

variable {config : Config} {t : SymbolTable} {d : FuncDecl}

theorem Op.isLoop_of_target? {op : Op} (h : op.target? = some .loop) : op.isLoop = true := by
  cases op <;> first | rfl | cases h

/-- The innermost target above a node is that of the innermost loop or switch. -/
theorem find?_of_head?_targets {above : List Node} {target : JumpTarget}
    (h : (above.filterMap (·.op.target?)).head? = some target) :
    ∃ m, above.find? (·.op.target?.isSome) = some m ∧ m.op.target? = some target := by
  induction above with
  | nil => cases h
  | cons m above ih =>
      rw [List.filterMap_cons] at h
      cases hm : m.op.target? with
      | none =>
          rw [hm] at h
          rw [List.find?_cons_of_neg (by simp [hm])]
          exact ih h
      | some other =>
          rw [hm] at h
          exact ⟨m, List.find?_cons_of_pos (by simp [hm]), hm.trans h⟩

namespace FuncDecl.Flows

/-- The jumps of a function that flows land. -/
theorem jumpsLand (h : d.Flows) : d.JumpsLand where
  breaks := by
    intro above n hn hop
    have hne := (Node.Controlled.occurs h.controlled hn).admitted.breaks hop
    rw [List.append_nil] at hne
    obtain ⟨target, htarget⟩ := List.exists_mem_of_ne_nil _ hne
    obtain ⟨m, hm, hsome⟩ := List.mem_filterMap.1 htarget
    exact ⟨m, hm, by rw [hsome]; rfl⟩
  continues := by
    intro above n hn hop
    have hhead := (Node.Controlled.occurs h.controlled hn).admitted.continues hop
    rw [List.append_nil] at hhead
    obtain ⟨m, hm, htarget⟩ := find?_of_head?_targets hhead
    exact ⟨m, hm, Op.isLoop_of_target? htarget⟩

/-- A function that flows comes to its conclusion. -/
theorem concludes (h : d.Flows) : d.Concludes := by
  have hadmitted : ∀ n ∈ Node.subtermsList d.body, ∃ targets,
      n.Admitted d.type.result targets := by
    intro n hn
    obtain ⟨above, hocc⟩ := Node.mem_subtermsList_iff_occurs.1 hn
    exact ⟨_, (Node.Controlled.occurs h.controlled hocc).admitted⟩
  refine ⟨h.ends.jumpsLast, ?_, fun hvalue => ?_, ?_, ?_⟩
  · intro n hn
    obtain ⟨targets, hn⟩ := hadmitted n hn
    exact hn.last
  · have hends := h.ends
    generalize d.body = body at hends
    cases hends with
    | void hvoid _ =>
        rw [hvoid] at hvalue
        cases hvalue
    | value _ _ => exact ⟨_, _, rfl⟩
  · intro n hn
    obtain ⟨targets, hn⟩ := hadmitted n hn
    exact hn.voids
  · intro n hn
    obtain ⟨targets, hn⟩ := hadmitted n hn
    exact hn.values

theorem of_stmtFree (hvoid : d.type.result.isVoid = true) (h : ∀ s ∈ d.body, s.StmtFree) :
    d.Flows where
  controlled := fun s hs => .of_stmtFree (h s hs)
  ends := .void hvoid fun s hs => Node.Controlled.isJump_eq_false (h s hs s s.self_mem_subterms)

end FuncDecl.Flows

/-! ## Built functions -/

/-- The statement of a guard is controlled and no jump. -/
theorem Guards.controlled {f : FuncType} {isGuarded : Bool} {guards : List Node}
    (h : Guards f isGuarded guards) :
    (∀ n ∈ guards, n.Controlled f.result []) ∧ ∀ n ∈ guards, n.op.isJump = false := by
  have hcond : (Node.call "fuzz_visited" [.textLit f.qualifiedName]).StmtFree :=
    .two rfl (.leaf rfl) (.leaf rfl)
  have hguard : ∀ early : Node, early.Controlled f.result [] →
      (Node.ifThen (.call "fuzz_visited" [.textLit f.qualifiedName]) (.block [early])).Controlled
        f.result [] := by
    intro early hearly
    refine .node rfl nofun (List.forall_mem_cons.2 ⟨.of_stmtFree hcond, ?_⟩)
    exact List.forall_mem_singleton.2
      (.block (List.forall_mem_singleton.2 hearly) (.single early))
  cases h with
  | none => exact ⟨nofun, nofun⟩
  | void hvoid =>
      refine ⟨List.forall_mem_singleton.2 (hguard _ ?_), List.forall_mem_singleton.2 rfl⟩
      exact .of ⟨nofun, nofun, fun _ => by rw [hvoid]; rfl, nofun, nofun⟩ nofun
  | value _ hx =>
      refine ⟨List.forall_mem_singleton.2 (hguard _ ?_), List.forall_mem_singleton.2 rfl⟩
      have hformed : Node.Every (Node.Formed fun _ => False) _ := hx.constant.formed
      refine .of ⟨nofun, nofun, nofun, fun _ => hx.constant.not_isVoid, nofun⟩ ?_
      exact List.forall_mem_singleton.2 (.of_stmtFree hformed.stmtFree)

/-- A built function flows. -/
theorem FuncDecl.Built.flows (ht : t.Ready) {isGuarded : Bool} (h : d.Built config t isGuarded) :
    d.Flows := by
  obtain ⟨guards, stmts, g, g', heq, hguards, hbegun, hbody⟩ := h.body
  have hcast := (hbegun.during (.refl g)).castable ht
  obtain ⟨hcontrolled, hends⟩ := body_flows hbegun.isOpen hcast hbegun.jumps hbegun.stmtDepth hbody
  obtain ⟨hguard, hjump⟩ := hguards.controlled
  rw [hbegun.currentResult] at hcontrolled hends
  constructor
  · rw [heq]
    exact List.forall_mem_append.2 ⟨hguard, hcontrolled⟩
  · rw [heq]
    exact hends.after hjump

/-- A constructor holds expressions only. -/
theorem Node.Creates.stmtFree {type : ClassType} {c : ClassRef} {s : Node}
    (h : s.Creates type c) : s.StmtFree := by
  obtain ⟨-, -, -⟩ := h
  exact .two rfl (.one rfl (.leaf rfl)) (.leaf rfl)

/-- The function that calls the others holds expressions only. -/
theorem FuncDecl.EntryBuilt.stmtFree (ht : t.Ready) {funcs : List FuncType}
    (h : d.EntryBuilt config t funcs) : ∀ s ∈ d.body, s.StmtFree := by
  obtain ⟨env, b, -, hsymbols, hvisible, hclass, hcalls⟩ := h.body
  have hcast : env.symbols.Castable := by
    rw [hsymbols]
    exact ht.castable
  exact forall₂_right (hcalls.imp fun f s hs => (hs.formed hcast hvisible hclass).stmtFree)

/-! ## Programs -/

/-- The functions of a built top-level node flow. -/
theorem RootNode.Built.flows (ht : t.Ready) {nodes : List RootNode} {r : RootNode}
    (h : r.Built config t nodes) : ∀ d ∈ r.bodies, d.Flows := by
  intro d hd
  cases h with
  | require path => cases hd
  | start => cases hd
  | func h =>
      obtain rfl := List.mem_singleton.1 hd
      exact h.flows ht
  | entry _ h =>
      obtain rfl := List.mem_singleton.1 hd
      exact .of_stmtFree (by rw [h.type]; rfl) (h.stmtFree ht)
  | ofClass h =>
      obtain ⟨-, -, hmethods, -⟩ := h
      rcases List.mem_append.1 hd with hd | hd
      · obtain ⟨htype, hcreates⟩ := ClassType.constructors_create hd
        exact .of_stmtFree (by rw [htype]; rfl) fun s hs => (hcreates s hs).stmtFree
      · exact (hmethods d hd).flows ht

/-- The functions of a generated program flow. -/
theorem Build.program_flows {ρ : Type} [WordSource ρ] (source : ρ) (config : Config)
    (attempts : Nat) {p : Program} {g' : Generator ρ}
    (h : Build.program (Generator.start source config attempts) = .ok (p, g')) :
    ∀ file ∈ p.files, ∀ d ∈ file.bodies, d.Flows := by
  have hcfg : config.Tolerated fun _ => True := Config.tolerated_of_all fun _ => trivial
  obtain ⟨hbuilt, ht⟩ := (Build.program_runs source hcfg trivial attempts).of_ok h
  intro file hfile d hd
  obtain ⟨r, hr, hd⟩ := List.mem_flatMap.1 hd
  exact (hbuilt.node file hfile r hr).flows ht d hd

/-- The steps that build what holds statements leave the jump targets as they found them. -/
structure Build.NestingKeepsTargets (ρ : Type) [WordSource ρ] (stack : Nat) : Prop where
  block : KeepsTargets (block (stmt stack : Build ρ (List Node)))
  condition : KeepsTargets (condition (stmt stack : Build ρ (List Node)))
  loop : KeepsTargets (loop (stmt stack : Build ρ (List Node)))
  caseBody : KeepsTargets (caseBody (stmt stack : Build ρ (List Node)))
  switch : KeepsTargets (switch (stmt stack : Build ρ (List Node)))

/-- The jumps of a generated program land, whatever the configuration and whatever the source
yields, and the steps that build blocks, conditions, loops and switches leave the jump targets as
they found them, whatever these are. -/
theorem Program.jumps_land {ρ : Type} [WordSource ρ] (source : ρ) (config : Config)
    (attempts : Nat) :
    (∀ p g', Build.program (Generator.start source config attempts) = .ok (p, g') →
      ∀ file ∈ p.files, ∀ d ∈ file.bodies, d.JumpsLand) ∧
    ∀ stack, Build.NestingKeepsTargets ρ stack := by
  constructor
  · intro p g' h file hfile d hd
    exact (Build.program_flows source config attempts h file hfile d hd).jumpsLand
  · intro stack
    have hone : Build.KeepsTargets (Build.stmt stack : Build ρ (List Node)) := .stmt stack
    exact ⟨.block hone, .condition hone, .loop hone, .caseBody hone, .switch hone⟩

/-- The jumps of a small program, which has both kinds. -/
theorem Program.jumps_land_small : ∃ p : Program,
    p.hasOp .breakJump = true ∧ p.hasOp .continueJump = true ∧
    (∀ file ∈ p.files, ∀ d ∈ file.bodies, d.JumpsLand) ∧
    ∀ stack, Build.NestingKeepsTargets Scripted.Stream stack := by
  obtain ⟨p, g', hrun, hjumps⟩ := Build.program_of_check ⟨[], 399⟩ .small 10
    (fun p => p.hasOp .breakJump && p.hasOp .continueJump) (by decide +kernel)
  obtain ⟨hbreak, hcontinue⟩ := Bool.and_eq_true_iff.1 hjumps
  have hland := Program.jumps_land (⟨[], 399⟩ : Scripted.Stream) .small 10
  exact ⟨p, hbreak, hcontinue, hland.1 p g' hrun, hland.2⟩

/-- Every function of a generated program comes to its conclusion, whatever the configuration and
whatever the source yields. -/
theorem Program.functions_conclude {ρ : Type} [WordSource ρ] (source : ρ) (config : Config)
    (attempts : Nat) {p : Program} {g' : Generator ρ}
    (h : Build.program (Generator.start source config attempts) = .ok (p, g')) :
    ∀ file ∈ p.files, ∀ d ∈ file.bodies, d.Concludes :=
  fun file hfile d hd => (Build.program_flows source config attempts h file hfile d hd).concludes

/-- The functions of a small program, which has returns. -/
theorem Program.functions_conclude_small : ∃ p : Program, p.hasOp .returnValue = true ∧
    ∀ file ∈ p.files, ∀ d ∈ file.bodies, d.Concludes := by
  obtain ⟨p, g', hrun, hreturn⟩ :=
    Build.program_of_check ⟨[], 0⟩ .small 10 (·.hasOp .returnValue) (by decide +kernel)
  exact ⟨p, hreturn, Program.functions_conclude _ _ _ hrun⟩

end TypedPhp
