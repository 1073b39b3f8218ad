import TypedPhp.Proofs.Program.Declarations
import TypedPhp.Proofs.Syntax.Subterms

set_option autoImplicit false

/-!
# Runs of bodies

Which bodies of a program can be run, and how often. What decides whether a statement is run, and in
which order expressions are evaluated, is left open: of the children of a node each acts at most
once, in some order, unless the node is a loop. Known are the calls, and the guards that let a body
be run only if its name has not been visited before. A run may stop anywhere, so `Program.Acts` also
covers what has happened so far in a run that does not come to an end.

A guarded body is then run at most once past its guard (`Program.Acts.ran_le_of_guarded`), and an
unguarded one at most as often as it is called in the text, if no loop calls it
(`Program.Acts.ran_le_of_calls`).
-/

namespace TypedPhp

open Node (collect)

/-! ## Calls -/

/-- The function that a call names. -/
def Node.callee? : Node → Option String
  | .mk .call (.mk .name _ (some (.ident name)) _ :: _) _ _ => some name
  | _ => none

/-- The methods of the classes of a program. -/
def Program.methods (p : Program) : List FuncDecl := p.classes.flatMap (·.2)

/-- A node runs the body of a function: a call by name that of the function, a method call that
of a method of the name, and a new object that of a constructor of its class. -/
inductive Program.Invokes (p : Program) : Node → FuncDecl → Prop where
  | function {args : List Node} {t : Option Ty} {d : FuncDecl} : d ∈ p.functions →
      Invokes p (.mk .call (.name d.type.name :: args) none t) d
  | method {object : Node} {args : List Node} {t : Option Ty} {d : FuncDecl} : d ∈ p.methods →
      Invokes p (.mk .methodCall (object :: args) (some (.ident d.type.name)) t) d
  | constructor {t : Option Ty} {type : ClassType} {methods : List FuncDecl} {d : FuncDecl} :
      (type, methods) ∈ p.classes → d ∈ methods → d.type.name = "__construct" →
      Invokes p (.mk .new [] (some (.ident type.name)) t) d

/-- The statement that returns early if a name has been visited, and visits it otherwise. -/
def Node.visitGuard (name : String) (early : List Node) : Node :=
  .ifThen (.call "fuzz_visited" [.textLit name]) (.block early)

/-! ## Runs -/

/-- What has happened in a run: the names that have been visited, and the functions whose bodies
have been run, past their guards if they have any. -/
structure History where
  visited : List String
  ran : List String

/-- What can act: a node, nodes of a list, or the body of a function that is called. -/
inductive Actor where
  | node (n : Node)
  | nodes (ns : List Node)
  | body (d : FuncDecl)

/-- What a part of a program can do, from one history to a later one. -/
inductive Program.Acts (p : Program) : Actor → History → History → Prop where
  | stop (ns : List Node) (h : History) : Acts p (.nodes ns) h h
  | next {ns rest : List Node} {n : Node} {h h₁ h' : History} : ns.Perm (n :: rest) →
      Acts p (.node n) h h₁ → Acts p (.nodes rest) h₁ h' → Acts p (.nodes ns) h h'
  | plain {n : Node} {h h' : History} : n.op.isLoop = false → Acts p (.nodes n.args) h h' →
      Acts p (.node n) h h'
  | invoke {n : Node} {d : FuncDecl} {h h₁ h' : History} : Acts p (.nodes n.args) h h₁ →
      p.Invokes n d → Acts p (.body d) h₁ h' → Acts p (.node n) h h'
  | loop {n : Node} {ns : List Node} {h h' : History} : n.op.isLoop = true →
      (∀ x ∈ ns, x ∈ n.args) → Acts p (.nodes ns) h h' → Acts p (.node n) h h'
  | again {d : FuncDecl} {name : String} {early rest : List Node} {h h' : History} :
      d.body = .visitGuard name early :: rest → name ∈ h.visited →
      Acts p (.nodes early) h h' → Acts p (.body d) h h'
  | first {d : FuncDecl} {name : String} {early rest : List Node} {h h' : History} :
      d.body = .visitGuard name early :: rest → name ∉ h.visited →
      Acts p (.nodes rest) ⟨name :: h.visited, d.type.qualifiedName :: h.ran⟩ h' →
      Acts p (.body d) h h'
  | unguarded {d : FuncDecl} {h h' : History} :
      (∀ name early rest, d.body ≠ .visitGuard name early :: rest) →
      Acts p (.nodes d.body) ⟨h.visited, d.type.qualifiedName :: h.ran⟩ h' → Acts p (.body d) h h'

namespace Program

variable {p : Program} {n : Node} {d : FuncDecl} {a : Actor} {h h' : History}

/-- The functions and methods of a program. -/
def callables (p : Program) : List FuncDecl := p.functions ++ p.methods

theorem Invokes.mem_callables (hn : p.Invokes n d) : d ∈ p.callables := by
  cases hn with
  | function hd => exact List.mem_append_left _ hd
  | method hd => exact List.mem_append_right _ hd
  | constructor hc hd _ => exact List.mem_append_right _ (List.mem_flatMap.2 ⟨_, hc, hd⟩)

/-- Bodies that act are those of functions and methods of the program. -/
def Owns (p : Program) : Actor → Prop
  | .body d => d ∈ p.callables
  | _ => True

/-! ## Guarded bodies -/

/-- A guarded body is run at most once, if every guard visits the name of its own function and
every function of the name is guarded. -/
theorem Acts.ran_le_of_guarded {name : String}
    (hkeys : ∀ d ∈ p.callables, ∀ key early rest, d.body = .visitGuard key early :: rest →
      key = d.type.qualifiedName)
    (hname : ∀ d ∈ p.callables, d.type.qualifiedName = name →
      ∃ early rest, d.body = .visitGuard name early :: rest)
    (hacts : p.Acts a h h') (ha : p.Owns a)
    (hle : h.ran.count name ≤ if name ∈ h.visited then 1 else 0) :
    h'.ran.count name ≤ if name ∈ h'.visited then 1 else 0 := by
  -- The body of the name is entered past its guard only where the name has not been visited.
  induction hacts with
  | stop ns h => exact hle
  | next _ _ _ ih ih' => exact ih' trivial (ih trivial hle)
  | plain _ _ ih | loop _ _ _ ih => exact ih trivial hle
  | invoke _ hinvokes _ ih ih' => exact ih' hinvokes.mem_callables (ih trivial hle)
  | again _ _ _ ih => exact ih trivial hle
  | @first d key early rest h h' hbody hfresh _ ih =>
      obtain rfl := hkeys d ha key early rest hbody
      refine ih trivial ?_
      by_cases heq : d.type.qualifiedName = name
      · rw [heq] at hfresh ⊢
        rw [if_neg hfresh] at hle
        rw [List.count_cons_self, if_pos List.mem_cons_self]
        omega
      · rw [List.count_cons_of_ne heq]
        refine Nat.le_trans hle ?_
        split
        · rename_i hmem
          exact Nat.le_of_eq (if_pos (List.mem_cons_of_mem _ hmem)).symm
        · exact Nat.zero_le _
  | @unguarded d h h' hbody _ ih =>
      refine ih trivial ?_
      have hne : d.type.qualifiedName ≠ name := by
        intro heq
        obtain ⟨early, rest, hguard⟩ := hname d ha heq
        exact hbody _ _ _ hguard
      rw [List.count_cons_of_ne hne]
      exact hle

end Program

/-! ## Counting calls -/

namespace Node

variable {counted : String → Bool} {ns ms : List Node}

/-- How many calls of certain functions stand in some trees. -/
def calls (counted : String → Bool) (ns : List Node) : Nat :=
  (collect callee? ns).countP counted

theorem calls_cons (n : Node) (ns : List Node) :
    calls counted (n :: ns) = calls counted [n] + calls counted ns := by
  rw [calls, collect_cons, List.countP_append, calls, calls]

theorem calls_node (n : Node) :
    calls counted [n] = n.callee?.toList.countP counted + calls counted n.args := by
  obtain ⟨op, args, payload, type⟩ := n
  rw [calls, collect_node, List.countP_append, calls]
  rfl

theorem calls_args_le (n : Node) : calls counted n.args ≤ calls counted [n] := by
  rw [calls_node]
  exact Nat.le_add_left _ _

theorem calls_perm (h : ns.Perm ms) : calls counted ns = calls counted ms :=
  (collect_perm h).countP_eq counted

theorem calls_eq_zero {n : Node} (h : calls counted [n] = 0) (hsub : ∀ x ∈ ns, x ∈ n.args) :
    calls counted ns = 0 := by
  rw [calls, List.countP_eq_zero] at h ⊢
  exact fun s hs => h s (collect_of_args hsub hs)

end Node

namespace Actor

variable {counted : String → Bool} {name : String} {n : Node}

/-- What an actor can add to the runs of a function: what is called in it, and the body itself. -/
def weight (counted : String → Bool) (name : String) : Actor → Nat
  | node n => Node.calls counted [n]
  | nodes ns => Node.calls counted ns
  | body d => (if d.type.qualifiedName = name then 1 else 0) + Node.calls counted d.body

/-- The trees of an actor. -/
def trees : Actor → List Node
  | node n => [n]
  | nodes ns => ns
  | body d => d.body

/-- No loop in an actor calls one of certain functions. -/
def Quiet (counted : String → Bool) (a : Actor) : Prop :=
  ∀ m ∈ Node.subtermsList a.trees, m.op.isLoop = true → Node.calls counted [m] = 0

theorem Quiet.of_calls_eq_zero {a : Actor} (h : Node.calls counted a.trees = 0) :
    a.Quiet counted := by
  intro m hm _
  rw [Node.calls, List.countP_eq_zero] at h ⊢
  exact fun name hname => h name (Node.collect_subterm hm hname)

theorem Quiet.part {a b : Actor} (h : a.Quiet counted)
    (hsub : ∀ m ∈ Node.subtermsList b.trees, m ∈ Node.subtermsList a.trees) : b.Quiet counted :=
  fun m hm => h m (hsub m hm)

/-- Children of a node of an actor are part of it. -/
theorem Quiet.children {a : Actor} (h : a.Quiet counted) (hn : n ∈ a.trees) {ns : List Node}
    (hsub : ∀ x ∈ ns, x ∈ n.args) : (nodes ns).Quiet counted := by
  refine h.part fun m hm => ?_
  obtain ⟨x, hx, hm⟩ := Node.mem_subtermsList.1 hm
  exact Node.mem_subtermsList.2 ⟨n, hn, Node.mem_subterms_of_args (hsub x hx) hm⟩

theorem Quiet.some {a : Actor} (h : a.Quiet counted) {ns : List Node}
    (hsub : ∀ x ∈ ns, x ∈ a.trees) : (nodes ns).Quiet counted := by
  refine h.part fun m hm => ?_
  obtain ⟨x, hx, hm⟩ := Node.mem_subtermsList.1 hm
  exact Node.mem_subtermsList.2 ⟨x, hsub x hx, hm⟩

end Actor

/-- What stands before and after a guard adds no more to the runs than the body. -/
theorem Node.calls_guard_le {counted : String → Bool} {d : FuncDecl} {key : String}
    {early rest : List Node} (hbody : d.body = .visitGuard key early :: rest) :
    Node.calls counted early ≤ Node.calls counted d.body ∧
      Node.calls counted rest ≤ Node.calls counted d.body := by
  have hblock : calls counted early ≤ calls counted [.block early] :=
    calls_args_le (.block early)
  have hguard : calls counted [.block early] ≤ calls counted [.visitGuard key early] := by
    have hargs : calls counted (visitGuard key early).args =
        calls counted [.call "fuzz_visited" [.textLit key]] + calls counted [.block early] :=
      calls_cons _ _
    refine Nat.le_trans ?_ (calls_args_le _)
    rw [hargs]
    exact Nat.le_add_left _ _
  rw [hbody, calls_cons]
  omega

/-- What a call enters adds no more to the runs than the call counts, if no method adds to them. -/
theorem Program.Invokes.weight_le {p : Program} {n : Node} {d : FuncDecl}
    {counted : String → Bool} {name : String}
    (hfunctions : ∀ d ∈ p.functions,
      Actor.weight counted name (.body d) ≤ if counted d.type.name then 1 else 0)
    (hmethods : ∀ d ∈ p.methods, Actor.weight counted name (.body d) = 0) (h : p.Invokes n d) :
    Actor.weight counted name (.body d) ≤ n.callee?.toList.countP counted := by
  cases h with
  | function hd =>
      have hle := hfunctions d hd
      rw [← List.countP_singleton] at hle
      exact hle
  | method hd => rw [hmethods d hd]; exact Nat.zero_le _
  | constructor hc hd _ =>
      rw [hmethods d (List.mem_flatMap.2 ⟨_, hc, hd⟩)]
      exact Nat.zero_le _

/-- A body is run at most as often as it is called in the text, if no loop calls it: the calls
of certain functions are counted, each of which adds no more to the runs than a call of it counts.
-/
theorem Program.Acts.ran_le_of_calls {p : Program} {a : Actor} {h h' : History}
    {counted : String → Bool} {name : String}
    (hfunctions : ∀ d ∈ p.functions,
      Actor.weight counted name (.body d) ≤ if counted d.type.name then 1 else 0)
    (hmethods : ∀ d ∈ p.methods, Actor.weight counted name (.body d) = 0)
    (hloops : ∀ d ∈ p.callables, Actor.Quiet counted (.body d))
    (hacts : p.Acts a h h') (ha : a.Quiet counted) :
    h'.ran.count name ≤ h.ran.count name + a.weight counted name := by
  have hran : ∀ (d : FuncDecl) (ran : List String), (d.type.qualifiedName :: ran).count name =
      ran.count name + if d.type.qualifiedName = name then 1 else 0 := by
    intro d ran
    rw [List.count_cons]
    simp only [beq_iff_eq]
  -- A body is noted only when a call enters it, and the call is what pays for it: the weight of a
  -- body is no more than what one call of it counts.
  induction hacts with
  | stop ns h => exact Nat.le_add_right _ _
  | @next ns rest n h h₁ h' hperm _ _ ih ih' =>
      have hone : (Actor.nodes [n]).Quiet counted :=
        ha.some (List.forall_mem_singleton.2 (hperm.mem_iff.2 List.mem_cons_self))
      have hn := ih hone
      have hrest := ih' (ha.some fun x hx => hperm.mem_iff.2 (List.mem_cons_of_mem n hx))
      simp only [Actor.weight] at hn hrest ⊢
      rw [Node.calls_perm hperm, Node.calls_cons]
      omega
  | @plain n h h' _ _ ih =>
      have hargs := ih (ha.children List.mem_cons_self fun x hx => hx)
      have hle : Node.calls counted n.args ≤ Node.calls counted [n] := Node.calls_args_le n
      simp only [Actor.weight] at hargs ⊢
      omega
  | @invoke n d h h₁ h' _ hinvokes _ ih ih' =>
      have hargs := ih (ha.children List.mem_cons_self fun x hx => hx)
      have hbody := ih' (hloops d hinvokes.mem_callables)
      have hweight := hinvokes.weight_le hfunctions hmethods
      change h'.ran.count name ≤ h.ran.count name + Node.calls counted [n]
      rw [Node.calls_node]
      simp only [Actor.weight] at hargs
      omega
  | @loop n ns h h' hloop hsub _ ih =>
      -- A loop may run its parts any number of times, but no call in them counts.
      have hzero : Node.calls counted [n] = 0 :=
        ha n (Node.mem_subtermsList.2 ⟨n, List.mem_cons_self, n.self_mem_subterms⟩) hloop
      have hns := ih (ha.children List.mem_cons_self hsub)
      simp only [Actor.weight, Node.calls_eq_zero hzero hsub] at hns
      omega
  | @again d key early rest h h' hbody _ _ ih =>
      -- A repeated visit runs the early return only, which is a part of the body.
      have hguard : Node.visitGuard key early ∈ (Actor.body d).trees := by
        rw [Actor.trees, hbody]
        exact List.mem_cons_self
      have hblock : (Actor.nodes [.block early]).Quiet counted := ha.children hguard
        (List.forall_mem_singleton.2 (.tail _ List.mem_cons_self))
      have hearly := ih (hblock.children List.mem_cons_self fun x hx => hx)
      have hle : Node.calls counted early ≤ Node.calls counted d.body :=
        (Node.calls_guard_le hbody).1
      simp only [Actor.weight] at hearly ⊢
      omega
  | @first d key early rest h h' hbody _ _ ih =>
      have hrest := ih (ha.some fun x hx => by
        rw [Actor.trees, hbody]
        exact List.mem_cons_of_mem _ hx)
      have hle : Node.calls counted rest ≤ Node.calls counted d.body :=
        (Node.calls_guard_le hbody).2
      simp only [Actor.weight, hran] at hrest ⊢
      omega
  | @unguarded d h h' _ _ ih =>
      have hbody := ih (ha.some fun x hx => hx)
      simp only [Actor.weight, hran] at hbody ⊢
      omega

end TypedPhp
