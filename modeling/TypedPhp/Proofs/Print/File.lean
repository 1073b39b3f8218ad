import Mathlib.Algebra.GroupWithZero.Nat
import TypedPhp.Print.Program
import TypedPhp.Proofs.Print.Stmt
import TypedPhp.Proofs.Program.Structure

set_option autoImplicit false

/-!
# Generated programs are written

Every declaration of a built program is written: parameters and fields have constant values, and
bodies consist of statements that are written. With `Build.program_runs` this gives
`Program.never_faults`: a validated configuration makes neither the generation nor the writing of a
program fail.
-/

namespace TypedPhp

open Print (Succeeds StmtSucceeds)

/-! ## Declarations -/

/-- A constant is written after a name. -/
theorem Print.initial_succeeds {x? : Option Node} (h : ∀ x, x? = some x → ∃ t, ConstantOf t x) :
    Succeeds (Print.initial x?) := by
  cases x? with
  | none => exact .pure _
  | some x =>
      obtain ⟨t, ht⟩ := h x rfl
      exact ht.written.bind fun _ => .pure _

/-- Sound parameters are written. -/
theorem FuncType.Sound.params_written {f : FuncType} (h : f.Sound) :
    Succeeds (Print.params f.params) := by
  apply Print.commaList_succeeds
  intro x hx
  obtain ⟨p, hp, rfl⟩ := List.mem_map.1 hx
  have hinitial := Print.initial_succeeds fun d hd =>
    ⟨p.type, ((h.params p hp).default d hd).constant⟩
  exact hinitial.bind fun _ => .pure _

/-- A function is written if its signature is sound and its statements are written. -/
theorem FuncDecl.written {d : FuncDecl} (hsound : d.type.Sound)
    (hbody : ∀ s ∈ d.body, StmtSucceeds s) (indent : Nat) (isMethod : Bool) :
    Succeeds (Print.func indent isMethod d) := by
  refine hsound.params_written.bind fun _ => ?_
  exact (Print.lines_succeeds (indent + 1) hbody).bind fun _ => .pure _

/-- A call of a function by name is written as a statement. -/
theorem call_written {callee : String} {args : List Node} {type : Option Ty}
    (hargs : ∀ x ∈ args, x.Every (Node.Formed fun _ => False)) :
    StmtSucceeds (.mk .call (.name callee :: args) none type) :=
  .expr rfl (Node.Every.call hargs).written

/-- A guard is written. -/
theorem Guards.written {f : FuncType} {isGuarded : Bool} {guards : List Node}
    (h : Guards f isGuarded guards) : ∀ s ∈ guards, StmtSucceeds s := by
  have hguard : ∀ early : Node, StmtSucceeds early →
      ∀ s ∈ [Node.ifThen (.call "fuzz_visited" [.textLit f.qualifiedName]) (.block [early])],
        StmtSucceeds s := by
    intro early hearly s hs
    obtain rfl := List.mem_singleton.1 hs
    have hcond : (Node.call "fuzz_visited" [.textLit f.qualifiedName]).Every
        (Node.Formed fun _ => False) := by
      refine .call fun x hx => ?_
      obtain rfl := List.mem_singleton.1 hx
      exact .lit _
    refine .ifThen hcond.written (.block fun s hs => ?_)
    obtain rfl := List.mem_singleton.1 hs
    exact hearly
  cases h with
  | none => exact nofun
  | void _ => exact hguard _ fun _ => .pure _
  | value _ hx =>
      exact hguard _ fun _ => hx.constant.written.bind fun _ => .pure _

variable {config : Config} {t : SymbolTable}

/-- A built function is written. -/
theorem FuncDecl.Built.written (ht : t.Ready) {isGuarded : Bool} {d : FuncDecl}
    (h : d.Built config t isGuarded) (indent : Nat) (isMethod : Bool) :
    Succeeds (Print.func indent isMethod d) := by
  apply FuncDecl.written h.drawn.toSound
  obtain ⟨guards, stmts, g, g', hbody, hguards, hbegun, hstmts⟩ := h.body
  have hcast := (hbegun.during (.refl g)).castable ht
  intro s hs
  rw [hbody] at hs
  rcases List.mem_append.1 hs with hs | hs
  · exact hguards.written s hs
  · exact body_written hbegun.isOpen hcast hstmts s hs

/-- The fields of a class are written. -/
theorem Print.fields_succeeds (indent : Nat) {earlier : List ClassRef} :
    ∀ {fs : List Field}, (∀ f ∈ fs, f.Drawn earlier) → Succeeds (Print.fields indent fs)
  | [], _ => .pure _
  | f :: fs, h => by
      have hrest := Print.fields_succeeds indent fun g hg => h g (List.mem_cons_of_mem f hg)
      have hinitial : Succeeds (Print.initial f.init) :=
        Print.initial_succeeds fun x hx => ⟨_, (h f List.mem_cons_self).init_constant hx⟩
      rw [Print.fields]
      exact hinitial.bind fun _ => hrest.bind fun _ => .pure _

/-- Methods that are written are written one after another. -/
theorem Print.methods_succeeds (indent : Nat) :
    ∀ {ds : List FuncDecl}, (∀ d ∈ ds, Succeeds (Print.func indent true d)) →
      Succeeds (Print.methods indent ds)
  | [], _ => .pure _
  | d :: ds, h => by
      have hrest := Print.methods_succeeds indent fun e he => h e (List.mem_cons_of_mem d he)
      rw [Print.methods]
      exact (h d List.mem_cons_self).bind fun _ => hrest.bind fun _ => .pure _

/-- A creation of a constructor is written. -/
theorem Node.Creates.written {type : ClassType} {c : ClassRef} {s : Node}
    (h : s.Creates type c) : StmtSucceeds s := by
  obtain ⟨-, -, -⟩ := h
  apply StmtSucceeds.expr rfl
  refine Node.Every.written (?_ : Node.Every (Node.Formed fun _ => True) _)
  refine .two (.assign _ _) (.one (.prop _ _ _) ?_) (.leaf (.new _ _))
  exact .var (v := ⟨"this", .object c⟩) trivial

/-- A built class is written. -/
theorem RootNode.ClassBuilt.written (ht : t.Ready) {n : RootNode} {i : Nat}
    (h : n.ClassBuilt config t i) : Succeeds (Print.rootNode n) := by
  obtain ⟨hdrawn, -, hmethods, -⟩ := h
  refine (Print.fields_succeeds 1 hdrawn.fields).bind fun _ => ?_
  refine Succeeds.bind (Print.methods_succeeds 1 fun d hd => ?_) fun _ => .pure _
  rcases List.mem_append.1 hd with hd | hd
  · obtain ⟨hty, hcreates⟩ := ClassType.constructors_create hd
    refine FuncDecl.written ?_ (fun s hs => (hcreates s hs).written) 1 true
    rw [hty]
    exact ⟨nofun, Or.inl rfl⟩
  · exact (hmethods d hd).written ht 1 true

/-- The function that calls the others is written. -/
theorem FuncDecl.EntryBuilt.written (ht : t.Ready) {funcs : List FuncType} {d : FuncDecl}
    (h : d.EntryBuilt config t funcs) : Succeeds (Print.func 0 false d) := by
  apply FuncDecl.written
  · rw [h.type]
    exact ⟨nofun, Or.inl rfl⟩
  · obtain ⟨env, b, -, hsymbols, hvisible, hclass, hcalls⟩ := h.body
    have hcast : env.symbols.Castable := by
      rw [hsymbols]
      exact ht.castable
    refine forall₂_right (hcalls.imp fun f s hs => ?_)
    exact .expr (by rw [hs.call_op]; rfl) (hs.formed hcast hvisible hclass).written

/-- Every built top-level node is written. -/
theorem RootNode.Built.written (ht : t.Ready) {nodes : List RootNode} {n : RootNode}
    (h : n.Built config t nodes) : Succeeds (Print.rootNode n) := by
  cases h with
  | require path => exact .pure _
  | start =>
      have hcall : StmtSucceeds (.call "main" []) := call_written nofun
      exact (hcall 0).bind fun _ => .pure _
  | ofClass h => exact h.written ht
  | func h => exact h.written ht 0 false
  | entry _ h => exact h.written ht

/-! ## Programs -/

/-- Top-level nodes that are written are written one after another. -/
theorem Print.rootNodes_succeeds : ∀ {ns : List RootNode} (afterRequire : Bool),
    (∀ n ∈ ns, Succeeds (Print.rootNode n)) → Succeeds (Print.rootNodes afterRequire ns)
  | [], _, _ => .pure _
  | n :: ns, _, h => by
      have hrest := Print.rootNodes_succeeds n.isRequire fun m hm => h m (List.mem_cons_of_mem n hm)
      rw [Print.rootNodes]
      exact (h n List.mem_cons_self).bind fun _ => hrest.bind fun _ => .pure _

/-- A built program is written. -/
theorem Program.Built.written (ht : t.Ready) {p : Program} (h : p.Built config t) :
    ∃ files, Print.program p = .ok files := by
  have hfile : ∀ f ∈ p.files, ∃ text, (do
      let contents ← Print.file f
      return (f.name, contents) : Except Fault (String × String)) = .ok text ∧ True := by
    intro f hf
    obtain ⟨body, hbody⟩ := Print.rootNodes_succeeds false fun n hn => (h.node f hf n hn).written ht
    refine ⟨(f.name, String.ofList ("<?php".toList ++ body ++ ['\n'])), ?_, trivial⟩
    rw [Print.file, Print.finish, hbody]
    rfl
  obtain ⟨generated, hgenerated, -⟩ := mapM_eq_ok hfile
  refine ⟨p.support.map (fun f => (f.name, f.contents)) ++ generated, ?_⟩
  rw [Print.program, hgenerated]
  rfl

theorem StmtKind.total_lt {room : Nat} (h : room < 2 ^ 61) (isNested : Bool) :
    ((StmtKind.weights room isNested).map (·.2)).sum < 2 ^ 64 := by
  cases isNested <;> simp [StmtKind.weights] <;> omega

/-- A validated configuration never makes generation or writing fail: for every source a program
is generated and written, unless a loop that waits for a suitable sample runs out of attempts; and
no sum of weights leaves the 64 bits that it is held in. -/
theorem Program.never_faults {ρ : Type} [WordSource ρ] (source : ρ) {config : Config}
    (attempts : Nat) (hvalid : config.validate = .ok ()) (hdepth : config.maxStmtDepth < 2 ^ 61) :
    ((∃ p g' files, Build.program (Generator.start source config attempts) = .ok (p, g') ∧
        Print.program p = .ok files) ∨
      Build.program (Generator.start source config attempts) = .error .outOfAttempts) ∧
    ∀ room ≤ config.maxStmtDepth, ∀ isNested,
      ((StmtKind.weights room isNested).map (·.2)).sum < 2 ^ 64 := by
  -- Nothing but the end of the attempts is admitted, so every other fault is ruled out.
  have hruns := Build.program_runs (E := (· = .outOfAttempts)) source
    (Config.tolerated_of_validate hvalid) rfl attempts
  constructor
  · rcases hruns.ok_or_error with ⟨p, g', hrun, hbuilt, ht⟩ | hrun
    · obtain ⟨files, hfiles⟩ := hbuilt.written ht
      exact Or.inl ⟨p, g', files, hrun, hfiles⟩
    · exact Or.inr hrun
  · intro room hroom isNested
    exact StmtKind.total_lt (Nat.lt_of_le_of_lt hroom hdepth) isNested

/-- The small configuration, with a source that starts from nothing: a program is written. -/
theorem Program.never_faults_small :
    Config.small.validate = .ok () ∧ Config.small.maxStmtDepth < 2 ^ 61 ∧ ∃ p g' files,
      Build.program (Generator.start (⟨[], 189⟩ : Scripted.Stream) .small 10) = .ok (p, g') ∧
        Print.program p = .ok files := by
  have hvalid : Config.small.validate = .ok () := by decide
  have hdepth : Config.small.maxStmtDepth < 2 ^ 61 := by decide
  refine ⟨hvalid, hdepth, ?_⟩
  obtain ⟨p, g', hrun, -⟩ := Build.program_small
  -- The source of this program never makes a loop wait that long.
  rcases (Program.never_faults (⟨[], 189⟩ : Scripted.Stream) 10 hvalid hdepth).1 with hwritten | hfault
  · exact hwritten
  · rw [hrun] at hfault
    cases hfault

end TypedPhp
