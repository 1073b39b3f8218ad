import TypedPhp.Proofs.Program.Variables
import TypedPhp.Proofs.Stmt.Loops

set_option autoImplicit false

/-!
# Bounded loops

Every loop of a function counts with a variable of its own, which is set to zero right before the
loop and stands nowhere else in the function, so however the function runs, no loop starts its body
more often than the configuration allows (`FuncDecl.LoopsBounded`). `Program.loops_bounded` says so
of every function, method and constructor of a generated program.
-/

namespace TypedPhp

open Node (collect varName? Lists)

/-! ## Loops of a function -/

/-- The variable of a loop of a function is no parameter. It stands in the function twice: where it
is set to zero and where it is tested. -/
def FuncDecl.Owns (d : FuncDecl) (name : String) : Prop :=
  name ∉ d.type.params.map (·.name) ∧ (collect varName? d.body).count name = 2

/-- The loops of a function are bounded: every loop stands in a statement list, right after the
assignment that sets its variable to zero, and whenever a run comes to it, it starts its body at
most as often as it counts. -/
structure FuncDecl.LoopsBounded (limit : Nat) (d : FuncDecl) : Prop where
  listed : ∀ m ∈ Node.subtermsList d.body, m.op.isLoop = true → ∃ l, Lists d.body l ∧ m ∈ l
  counted : Throughout (LoopsCount limit d.Owns) d.body
  entered : ∀ σ m σ', Comes d.body σ m σ' → m.op.isLoop = true →
    ∃ name n, m.Counts name n ∧ n ≤ limit ∧ ∀ k σ'', Starts m k σ' σ'' → k ≤ n

variable {config : Config} {t : SymbolTable} {d : FuncDecl} {limit : Nat} {vars : List ScopeVar}
  {n s : Node}

/-- A formed expression holds no loop. -/
theorem Node.Formed.isLoop_eq {known : ScopeVar → Prop} (h : n.Formed known) :
    n.op.isLoop = false := by
  cases h with
  | literal l => cases l <;> rfl
  | unary x hop =>
      have hall : ∀ op ∈ Op.unary, op.isLoop = false := by decide
      exact hall _ hop
  | @binary op x y type hop =>
      change op.isLoop = false
      cases op <;> first | rfl | cases hop
  | _ => rfl

theorem FuncDecl.LoopsBounded.of_counted
    (hlisted : ∀ m ∈ Node.subtermsList d.body, m.op.isLoop = true → ∃ l, Lists d.body l ∧ m ∈ l)
    (hcounted : Throughout (LoopsCount limit d.Owns) d.body) : d.LoopsBounded limit :=
  ⟨hlisted, hcounted, fun _ _ _ hcomes hm => hcomes.starts_le hcounted hm⟩

/-- The statements of the lists of a body are nodes of it. -/
theorem Node.Lists.mem_subtermsList {ns l : List Node} (h : Lists ns l) (hs : s ∈ l) :
    s ∈ Node.subtermsList ns := by
  induction h with
  | self ns => exact Node.mem_subtermsList.2 ⟨s, hs, s.self_mem_subterms⟩
  | @inner ns body l m hm hbody _ ih =>
      obtain ⟨x, hx, hsub⟩ := Node.mem_subtermsList.1 (ih hs)
      have hargs := Node.mem_args_of_mem_bodies hbody hx
      exact Node.mem_subtermsList.2 ⟨m, hm, Node.mem_subterms_of_args hargs hsub⟩

/-- A function without loops. -/
theorem FuncDecl.LoopsBounded.of_none (h : ∀ s ∈ d.body, s.Every fun m => m.op.isLoop = false) :
    d.LoopsBounded limit := by
  have hnone : ∀ m ∈ Node.subtermsList d.body, m.op.isLoop = false := by
    intro m hm
    obtain ⟨s, hs, hm⟩ := Node.mem_subtermsList.1 hm
    exact h s hs m hm
  apply FuncDecl.LoopsBounded.of_counted
  · intro m hm hloop
    rw [hnone m hm] at hloop
    cases hloop
  · exact fun l hl => .of_none fun m hm => hnone m (hl.mem_subtermsList hm)

/-! ## Built functions -/

/-- What a statement evaluates or assigns at its site holds no loop. -/
structure Node.LoopFree (s : Node) : Prop where
  uses : ∀ x ∈ s.uses, x.Every fun m => m.op.isLoop = false
  assigned : s.op = .assign → ∀ x ∈ s.args, x.op = .var → x.Every fun m => m.op.isLoop = false

theorem GuardSite.loopFree {f : FuncType} (h : GuardSite f s) : s.LoopFree where
  uses := fun x hx => (h.formed.1 x hx).mono fun _ hm => hm.isLoop_eq
  assigned := fun hop => absurd hop h.formed.2

theorem Node.mem_uses_assign (place x : Node) : x ∈ (Node.assign place x).uses := by
  obtain ⟨op, args, payload, type⟩ := place
  cases op <;> first
    | exact List.mem_singleton.2 rfl
    | exact .tail _ List.mem_cons_self

/-- A statement that is built evaluates no loop. -/
theorem Stated.loopFree {g : Generator Unit} (hcast : g.symbols.Castable) (hg : Covers vars g)
    (h : Stated g vars s) : s.LoopFree := by
  have huses : ∀ x ∈ s.uses, x.Every fun m => m.op.isLoop = false :=
    fun x hx => (h.formed hcast hg x hx).mono fun _ hm => hm.isLoop_eq
  refine ⟨huses, fun hop x hx hvar => ?_⟩
  obtain ⟨place, y, rfl, hplace⟩ := h.assigns hg hop
  rcases List.mem_cons.1 hx with rfl | hx
  · obtain ⟨v, rfl, -⟩ := hplace hvar
    exact Node.Every.leaf rfl
  · rw [List.mem_singleton.1 hx]
    exact huses y (Node.mem_uses_assign place y)

/-- Every loop of a built function stands in a statement list. -/
theorem FuncDecl.Built.loops_listed (ht : t.Ready) {isGuarded : Bool}
    (h : d.Built config t isGuarded) :
    ∀ m ∈ Node.subtermsList d.body, m.op.isLoop = true → ∃ l, Lists d.body l ∧ m ∈ l := by
  have hfree : Sited (fun _ s => s.LoopFree) d.type.entryVars d.body :=
    h.sited (fun _ _ hguard => hguard.loopFree) fun _ _ _ hin hcovers hstated =>
      hstated.loopFree (hin.castable ht) hcovers
  have hlisted : Sited (fun _ s => s.LoopFree ∧ ∃ l, Lists d.body l ∧ s ∈ l) d.type.entryVars
      d.body := fun vars s hs => ⟨hfree vars s hs, hs.listed⟩
  have hnone : ∀ x : Node, (x.Every fun m => m.op.isLoop = false) →
      x.Every fun m => m.op.isLoop = true → ∃ l, Lists d.body l ∧ m ∈ l := by
    refine fun x hx => hx.mono fun m hm hloop => ?_
    rw [hm] at hloop
    cases hloop
  intro m hm
  obtain ⟨s, hs, hm⟩ := Node.mem_subtermsList.1 hm
  refine Sited.every (R := fun m => m.op.isLoop = true → ∃ l, Lists d.body l ∧ m ∈ l)
    (fun _ s hs => ⟨fun _ => hs.2, fun x hx => hnone x (hs.1.uses x hx), ?_⟩) hlisted s hs m hm
  exact fun hop x hx hvar => hnone x (hs.1.assigned hop x hx hvar)

/-- The statement of a guard paces its loops: it has none. -/
theorem Guards.paced {f : FuncType} {isGuarded : Bool} {guards : List Node} (low : Nat)
    (h : Guards f isGuarded guards) : Paces limit low low guards := by
  have hclosed : ∀ x : Node, x.Every (Node.Formed fun _ => False) → ∀ i,
      counter i ∉ collect varName? [x] := fun x hx i => counter_not_mem (fun _ => False.elim) hx i
  have hguard : ∀ early : Node, Paces limit low low [early] → Paces limit low low
      [.ifThen (.call "fuzz_visited" [.textLit f.qualifiedName]) (.block [early])] := by
    intro early hearly
    refine hearly.block.around rfl (fun i => ?_) fun _ hb _ hl => Paces.lists_of_eq hb hl
    have hcond := hclosed (.call "fuzz_visited" [.textLit f.qualifiedName])
      (.call (List.forall_mem_singleton.2 (.lit _))) i
    rw [Node.ifThen, Node.variables_ofArgs, Node.collect_cons, List.count_append,
      List.count_eq_zero.2 hcond, Nat.zero_add]
  cases h with
  | none => exact .nil
  | void _ => exact hguard _ (.simple rfl rfl fun i => List.not_mem_nil)
  | value _ hx =>
      refine hguard _ (.simple rfl rfl fun i => ?_)
      rw [Node.ret, Node.variables_ofArgs]
      exact hclosed _ hx.constant.formed i

/-- The loops of a built function are bounded. -/
theorem FuncDecl.Built.loopsBounded (ht : t.Ready) (hlimit : config.maxLoopIterations < Nat.pow 2 63)
    {isGuarded : Bool} (h : d.Built config t isGuarded) :
    d.LoopsBounded config.maxLoopIterations := by
  refine .of_counted (h.loops_listed ht) ?_
  obtain ⟨guards, stmts, g, g', heq, hguards, hbegun, hbody⟩ := h.body
  obtain ⟨n, hn⟩ := h.drawn.names
  have hparams : ∀ p ∈ d.type.params, ∀ i, p.name ≠ counter i := by
    intro p hp i
    obtain ⟨j, hj⟩ := exists_name_of_map_eq hn p hp
    rw [hj]
    exact param_ne_counter j i
  -- When the body begins, only parameters are in scope, and no counter is named like one.
  have hpacing : g.Pacing := by
    refine ⟨hbegun.isOpen, ?_, ?_, ?_⟩
    · intro v hv i
      obtain ⟨p, hp, rfl⟩ := hbegun.params v hv
      exact hparams p hp i
    · exact (hbegun.during (.refl g)).castable ht
    · rw [hbegun.config]
      exact hlimit
  have hpaces := (hguards.paced g.nextCounter).append (body_paced hpacing hbody) (Nat.le_refl _)
    (body_advances hbegun.isOpen hbody).counters
  rw [← heq, hbegun.config] at hpaces
  refine hpaces.loops.mono fun l hl => hl.mono fun name hname => ?_
  obtain ⟨i, -, -, rfl, htwo⟩ := hname
  refine ⟨fun hmem => ?_, htwo⟩
  obtain ⟨p, hp, hname⟩ := List.mem_map.1 hmem
  exact hparams p hp i hname

theorem Node.Creates.loopFree {type : ClassType} {c : ClassRef} (h : s.Creates type c) :
    s.Every fun m => m.op.isLoop = false := by
  obtain ⟨-, -, -⟩ := h
  exact .two rfl (.one rfl (.leaf rfl)) (.leaf rfl)

/-- The function that calls the others has no loop. -/
theorem FuncDecl.EntryBuilt.loopFree (ht : t.Ready) {funcs : List FuncType}
    (h : d.EntryBuilt config t funcs) : ∀ s ∈ d.body, s.Every fun m => m.op.isLoop = false := by
  obtain ⟨env, b, -, hsymbols, hvisible, hclass, hcalls⟩ := h.body
  have hcast : env.symbols.Castable := by
    rw [hsymbols]
    exact ht.castable
  refine forall₂_right (hcalls.imp fun f s hs => ?_)
  exact (hs.formed hcast hvisible hclass).mono fun _ hm => hm.isLoop_eq

/-! ## Programs -/

/-- The loops of the functions of a built top-level node are bounded. -/
theorem RootNode.Built.loopsBounded (ht : t.Ready) (hlimit : config.maxLoopIterations < Nat.pow 2 63)
    {nodes : List RootNode} {r : RootNode} (h : r.Built config t nodes) :
    ∀ d ∈ r.bodies, d.LoopsBounded config.maxLoopIterations := by
  intro d hd
  cases h with
  | require path => cases hd
  | start => cases hd
  | func h =>
      obtain rfl := List.mem_singleton.1 hd
      exact h.loopsBounded ht hlimit
  | entry _ h =>
      obtain rfl := List.mem_singleton.1 hd
      exact .of_none (h.loopFree ht)
  | ofClass h =>
      obtain ⟨-, -, hmethods, -⟩ := h
      rcases List.mem_append.1 hd with hd | hd
      · obtain ⟨-, hcreates⟩ := ClassType.constructors_create hd
        exact .of_none fun s hs => (hcreates s hs).loopFree
      · exact (hmethods d hd).loopsBounded ht hlimit

/-- Every loop of a generated program is bounded, whatever its body does, for every validated
configuration and whatever the source yields. -/
theorem Program.loops_bounded {ρ : Type} [WordSource ρ] (source : ρ) {config : Config}
    (attempts : Nat) (hvalid : config.validate = .ok ()) {p : Program} {g' : Generator ρ}
    (h : Build.program (Generator.start source config attempts) = .ok (p, g')) :
    ∀ file ∈ p.files, ∀ d ∈ file.bodies, d.LoopsBounded config.maxLoopIterations := by
  have hcfg : config.Tolerated fun _ => True := Config.tolerated_of_all fun _ => trivial
  obtain ⟨hbuilt, ht⟩ := (Build.program_runs source hcfg trivial attempts).of_ok h
  have hlimit := Config.maxLoopIterations_lt_of_validate hvalid
  intro file hfile d hd
  obtain ⟨r, hr, hd⟩ := List.mem_flatMap.1 hd
  exact (hbuilt.node file hfile r hr).loopsBounded ht hlimit d hd

/-- Whether a function of a program has a loop. -/
def Program.hasLoop (p : Program) : Bool :=
  p.files.any fun file => file.bodies.any fun d =>
    (Node.subtermsList d.body).any fun m => m.op.isLoop

/-- The loops of a small program, which has some. -/
theorem Program.loops_bounded_small : Config.small.validate = .ok () ∧ ∃ p : Program,
    p.hasLoop = true ∧
    ∀ file ∈ p.files, ∀ d ∈ file.bodies, d.LoopsBounded Config.small.maxLoopIterations := by
  have hvalid : Config.small.validate = .ok () := by decide
  obtain ⟨p, g', hrun, hloop⟩ :=
    Build.program_of_check ⟨[], 12⟩ .small 10 Program.hasLoop (by decide +kernel)
  exact ⟨hvalid, p, hloop, Program.loops_bounded _ _ hvalid hrun⟩

end TypedPhp
