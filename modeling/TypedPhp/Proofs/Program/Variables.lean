import TypedPhp.Proofs.Program.Structure
import TypedPhp.Proofs.Stmt.Formed

set_option autoImplicit false

/-!
# Definite assignment

A body is read from the parameters of its function on, and from the current object in a member of a
class. Wherever the reading comes to a statement, every variable that the statement reads has been
introduced before, with the type that it carries there, and an assignment to a variable that has
been introduced is one of the same type (`Assigned`). `Program.variables_assigned` says so of every
function, method and constructor of a generated program.
-/

namespace TypedPhp

/-- The variables of a statement are assigned before, with the types that they carry, and a
variable that is assigned again keeps its type. -/
structure Assigned (vars : List ScopeVar) (s : Node) : Prop where
  reads : ∀ x ∈ s.uses, ∀ n ∈ x.subterms, n.op = .var →
    ∃ v, lookup? vars v.name = some v ∧ n = Env.varNode v
  writes : s.op = .assign → ∃ place x, s = .assign place x ∧ (place.op = .var →
    ∃ v, place = Env.varNode v ∧ ∀ w, lookup? vars v.name = some w → w = v)

variable {vars : List ScopeVar} {s : Node}

/-- In an environment of distinct names, formed expressions read assigned variables. -/
theorem Assigned.of_formed (hd : (vars.map (·.name)).Nodup)
    (h : ∀ x ∈ s.uses, x.Every (Node.Formed (· ∈ vars)))
    (hwrites : s.op = .assign → ∃ place x, s = .assign place x ∧ (place.op = .var →
      ∃ v, place = Env.varNode v ∧ (v ∈ vars ∨ v.name ∉ vars.map (·.name)))) :
    Assigned vars s := by
  constructor
  · intro x hx n hn hop
    obtain ⟨v, hv, rfl⟩ := (h x hx).varNode hn hop
    exact ⟨v, lookup?_of_mem hd hv, rfl⟩
  -- A name that is known already is that of one variable only, since names are distinct.
  · intro hop
    obtain ⟨place, x, rfl, hplace⟩ := hwrites hop
    refine ⟨place, x, rfl, fun hvar => ?_⟩
    obtain ⟨v, rfl, hv⟩ := hplace hvar
    refine ⟨v, rfl, fun w hw => ?_⟩
    rcases hv with hv | hv
    · rw [lookup?_of_mem hd hv] at hw
      exact (Option.some.inj hw).symm
    · have hname : w.name = v.name := by simpa using List.find?_some hw
      refine absurd ?_ hv
      rw [← hname]
      exact List.mem_map_of_mem (List.mem_of_find?_eq_some hw)

/-- A statement that reads no variable and assigns none. -/
theorem Assigned.of_closed (h : ∀ x ∈ s.uses, x.Every (Node.Formed fun _ => False))
    (hop : s.op ≠ .assign) : Assigned vars s := by
  constructor
  · intro x hx n hn hvar
    obtain ⟨v, hv, -⟩ := (h x hx).varNode hn hvar
    exact hv.elim
  · exact fun hassign => absurd hassign hop

/-! ## Bodies -/

/-- The expressions of a guard are formed, with no variable in them. -/
theorem GuardSite.formed {f : FuncType} (h : GuardSite f s) :
    (∀ x ∈ s.uses, x.Every (Node.Formed fun _ => False)) ∧ s.op ≠ .assign := by
  cases h with
  | condition body =>
      refine ⟨?_, nofun⟩
      exact List.forall_mem_singleton.2 (.call (List.forall_mem_singleton.2 (.lit _)))
  | block body => exact ⟨nofun, nofun⟩
  | void _ => exact ⟨nofun, nofun⟩
  | value h => exact ⟨List.forall_mem_singleton.2 h.formed, nofun⟩

theorem GuardSite.assigned {f : FuncType} (h : GuardSite f s) : Assigned vars s :=
  .of_closed h.formed.1 h.formed.2

/-- An assignment among the statements that are built introduces a new name, or is one to a place.
-/
theorem Stated.assigns {g : Generator Unit} (hg : Covers vars g) (h : Stated g vars s)
    (hop : s.op = .assign) : ∃ place x, s = .assign place x ∧ (place.op = .var →
      ∃ v, place = Env.varNode v ∧ (v ∈ vars ∨ v.name ∉ vars.map (·.name))) := by
  -- Only declarations, counters and plain assignments have this operator.
  cases h with
  | @declaration _ t x hfresh _ _ _ =>
      exact ⟨_, x, rfl, fun _ => ⟨⟨_, t⟩, rfl, Or.inr hfresh⟩⟩
  | counter hfresh => exact ⟨_, _, rfl, fun _ => ⟨⟨_, .int⟩, rfl, Or.inr hfresh⟩⟩
  | @assignment t place n hplace h =>
      have hassign : ∀ x, ∃ place' x', Node.assign place x = .assign place' x' ∧
          (place'.op = .var → ∃ v, place' = Env.varNode v ∧
            (v ∈ vars ∨ v.name ∉ vars.map (·.name))) := by
        intro x
        refine ⟨place, x, rfl, fun hvar => ?_⟩
        cases hplace with
        | var hv _ => exact ⟨_, rfl, Or.inl (hg.visible _ hv)⟩
        | field _ _ _ => cases hvar
      cases h with
      | compound _ _ => cases hop
      | value _ _ => exact hassign _
      | constant _ => exact hassign _
  | dump h =>
      rw [h.call_op] at hop
      cases hop
  | voidCall _ _ h =>
      rcases h.call_op with hcall | hcall
      · rw [hcall] at hop
        cases hop
      · rw [hcall] at hop
        cases hop
  | returns h =>
      rcases h.return_op with hreturn | hreturn
      · rw [hreturn] at hop
        cases hop
      · rw [hreturn] at hop
        cases hop
  | _ => cases hop

/-- The variables of a built function are assigned. -/
theorem FuncDecl.Built.assigned {config : Config} {t : SymbolTable} (ht : t.Ready)
    {isGuarded : Bool} {d : FuncDecl} (h : d.Built config t isGuarded) :
    Sited Assigned d.type.entryVars d.body := by
  refine h.sited (fun _ _ hguard => hguard.assigned) fun g vars s hin hcovers hstated => ?_
  exact .of_formed hcovers.distinct (hstated.formed (hin.castable ht) hcovers)
    (hstated.assigns hcovers)

/-! ## Constructors and the function that calls the others -/

/-- The variables of a constructor are assigned. -/
theorem Node.Creates.assigned {type : ClassType} {c : ClassRef} (h : s.Creates type c) :
    Assigned [⟨"this", .object c⟩] s := by
  obtain ⟨-, -, -⟩ := h
  refine .of_formed (by simp) ?_ ?_
  · intro x hx
    rcases List.mem_cons.1 hx with rfl | hx
    · exact .one (.prop _ _ _) (.var (v := ⟨"this", .object c⟩) (List.mem_singleton.2 rfl))
    · obtain rfl := List.mem_singleton.1 hx
      exact .leaf (.new _ _)
  · exact fun _ => ⟨_, _, rfl, nofun⟩

/-- The variables of the function that calls the others are assigned. -/
theorem FuncDecl.EntryBuilt.assigned {config : Config} {t : SymbolTable} (ht : t.Ready)
    {funcs : List FuncType} {d : FuncDecl} (h : d.EntryBuilt config t funcs) :
    Sited Assigned d.type.entryVars d.body := by
  obtain ⟨env, b, -, hsymbols, hvisible, hclass, hcalls⟩ := h.body
  have hcast : env.symbols.Castable := by
    rw [hsymbols]
    exact ht.castable
  have hall : ∀ s ∈ d.body, ∃ f, EntryCall env b f s := by
    refine forall₂_right (hcalls.imp fun f s hs => ⟨f, hs⟩)
  -- It has no parameters, and its calls read no variable at all.
  rw [h.type]
  apply Sited.of_simple
  intro s hs
  obtain ⟨f, hf⟩ := hall s hs
  have hop := hf.call_op
  refine ⟨?_, by rw [hop]; rfl, introduce_of_op (by rw [hop]; nofun) _⟩
  refine .of_formed List.nodup_nil ?_ fun h => ?_
  · rw [Node.uses_of_call (Or.inl hop)]
    intro x hx
    obtain rfl := List.mem_singleton.1 hx
    exact (hf.formed hcast hvisible hclass).mono fun _ hm => hm.mono fun _ => False.elim
  · rw [hop] at h
    cases h

/-! ## Programs -/

/-- The variables of every function of a built program are assigned. -/
theorem RootNode.Built.assigned {config : Config} {t : SymbolTable} (ht : t.Ready)
    {nodes : List RootNode} {n : RootNode} (h : n.Built config t nodes) :
    ∀ d ∈ n.bodies, Sited Assigned d.type.entryVars d.body := by
  intro d hd
  cases h with
  | require path => cases hd
  | start => cases hd
  | func h =>
      obtain rfl := List.mem_singleton.1 hd
      exact h.assigned ht
  | entry _ h =>
      obtain rfl := List.mem_singleton.1 hd
      exact h.assigned ht
  | ofClass h =>
      obtain ⟨-, -, hmethods, -⟩ := h
      rcases List.mem_append.1 hd with hd | hd
      · obtain ⟨hty, hcreates⟩ := ClassType.constructors_create hd
        rw [hty]
        apply Sited.of_simple
        intro s hs
        refine ⟨(hcreates s hs).assigned, ?_⟩
        obtain ⟨-, -, -⟩ := hcreates s hs
        exact ⟨rfl, rfl⟩
      · exact (hmethods d hd).assigned ht

/-- In a generated program every variable is assigned before it is read and keeps one type, in
every function, method and constructor, whatever the configuration and whatever the source yields.
-/
theorem Program.variables_assigned {ρ : Type} [WordSource ρ] (source : ρ) (config : Config)
    (attempts : Nat) {p : Program} {g' : Generator ρ}
    (h : Build.program (Generator.start source config attempts) = .ok (p, g')) :
    ∀ file ∈ p.files, ∀ f ∈ file.bodies, Sited Assigned f.type.entryVars f.body := by
  have hcfg : config.Tolerated fun _ => True := Config.tolerated_of_all fun _ => trivial
  obtain ⟨hbuilt, ht⟩ := (Build.program_runs source hcfg trivial attempts).of_ok h
  intro file hfile f hf
  obtain ⟨n, hn, hf⟩ := List.mem_flatMap.1 hf
  exact (hbuilt.node file hfile n hn).assigned ht f hf

/-- The variables of a small program, which are introduced, read and assigned again. -/
theorem Program.variables_assigned_small : ∃ p : Program,
    p.hasOp .assign = true ∧ p.hasOp .assignModify = true ∧
    ∀ file ∈ p.files, ∀ f ∈ file.bodies, Sited Assigned f.type.entryVars f.body := by
  obtain ⟨p, g', hrun, hops⟩ := Build.program_small
  exact ⟨p, hops _ (by decide), hops _ (by decide), Program.variables_assigned _ _ _ hrun⟩

end TypedPhp
