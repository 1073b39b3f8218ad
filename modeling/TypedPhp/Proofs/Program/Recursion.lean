import TypedPhp.Proofs.Program.Callables
import TypedPhp.Proofs.Program.Callees
import TypedPhp.Proofs.Program.Loops
import TypedPhp.Proofs.Text.Bytes

set_option autoImplicit false

/-!
# Guarded recursion

Functions of library files and methods may call each other in any way, but each of them returns
early from its second call on. The functions of the main file have no guard: each of them is called
once, by a function that is itself called once. So however a program runs, no body is run twice past
its guard (`Program.recursion_guarded`).
-/

namespace TypedPhp

open Node (collect callee?)

variable {config : Config} {t : SymbolTable} {q : Program.Parts} {d : FuncDecl}

/-! ## What is guarded -/

/-- A function is guarded: its body begins with the statement that visits the name of the
function and returns early if that has been visited, with a constant that fits the result if there
is one. -/
inductive FuncDecl.Guarded (d : FuncDecl) : Prop where
  | void {rest : List Node} : d.type.result = .void →
      d.body = .visitGuard d.type.qualifiedName [.retVoid] :: rest → Guarded d
  | value {x : Node} {rest : List Node} : d.type.result ≠ .void → ConstantOf d.type.result x →
      Fits [] d.type.result x →
      d.body = .visitGuard d.type.qualifiedName [.ret x] :: rest → Guarded d

/-- Recursion goes through guarded bodies only, in a program whose main file has certain
functions and a last one that calls them. -/
structure Program.GuardsRecursion (p : Program) (funcs : List FuncDecl) (entry : FuncDecl) :
    Prop where
  mainFunctions : p.mainFunctions = funcs ++ [entry]
  numbered : ∃ n, funcs.map (·.type.name) = (List.range n).map mainFuncName
  entryType : entry.type = .function "main" [] .void
  guarded : ∀ d ∈ p.guarded, d.Guarded
  /-- The names that guards visit differ. -/
  keys : (p.guarded.map (·.type.qualifiedName)).Nodup
  /-- Names are visited in guards only. -/
  visits : ∀ d ∈ p.guarded, (collect callee? d.body).count "fuzz_visited" = 1
  visitsElsewhere : "fuzz_visited" ∉ collect callee?
    (p.rootStmts ++ (p.mainFunctions ++ p.constructors).flatMap (·.body) ++ p.constants)
  /-- No body but that of the last function calls a function of the main file. -/
  apart : ∀ d ∈ p.guarded ++ p.constructors ++ funcs, Node.Apart d.body
  /-- The last function calls each of the others once, in order. -/
  enters : List.Forall₂ (fun f s => s.EntersOnce f.type) funcs entry.body
  /-- The last function is called once in the program, by the last statement of the main file. -/
  starts : (collect callee? p.trees).count "main" = 1
  startsLast : ∃ file, p.files.getLast? = some file ∧ file.name = mainFileName ∧
    file.nodes.getLast? = some (.stmt (.call "main" [])) ∧ p.rootStmts = [.call "main" []]
  /-- Whatever a program does, no guarded body is run twice past its guard, and no function of the
  main file is run twice. -/
  runs : ∀ h, p.Acts (.nodes p.rootStmts) ⟨[], []⟩ h → ∀ d ∈ p.guarded ++ p.mainFunctions,
    h.ran.count d.type.qualifiedName ≤ 1

/-- A guard determines the name that it visits. -/
theorem Node.visitGuard_inj {key key' : String} {early early' : List Node}
    (h : visitGuard key early = visitGuard key' early') : key = key' := by
  have hargs : [call "fuzz_visited" [textLit key], block early] =
      [call "fuzz_visited" [textLit key'], block early'] := congrArg args h
  have hcall : [name "fuzz_visited", textLit key] = [name "fuzz_visited", textLit key'] :=
    congrArg args (List.cons.inj hargs).1
  have hkey : textLit key = textLit key' := (List.cons.inj (List.cons.inj hcall).2).1
  have hpayload : some (Payload.literal (.string key.toUTF8.toList)) =
      some (Payload.literal (.string key'.toUTF8.toList)) := congrArg payload hkey
  injection hpayload with hpayload
  injection hpayload with hpayload
  injection hpayload with hbytes
  exact toUTF8_toList_inj hbytes

/-- A function that is built with a guard is guarded. -/
theorem FuncDecl.Built.guarded (h : d.Built config t true) : d.Guarded := by
  obtain ⟨guards, stmts, g, g', heq, hguards, -, -⟩ := h.body
  cases hguards with
  | void hvoid => exact .void hvoid heq
  | value _ hx =>
      refine .value (fun hvoid => ?_) hx.constant hx.constant.fits heq
      have hnot := hx.constant.not_isVoid
      rw [hvoid] at hnot
      cases hnot

/-! ## Calls of the functions of the main file -/

/-- The counted names are those of functions of the main file. -/
def CountsMain (counted : String → Bool) : Prop :=
  ∀ name, counted name = true → name = "main" ∨ ∃ i, name = mainFuncName i

variable {counted : String → Bool}

/-- Trees that are apart from the main file call none of its functions. -/
theorem Node.Apart.calls_eq_zero {ns : List Node} (h : Node.Apart ns) (hc : CountsMain counted) :
    Node.calls counted ns = 0 := by
  rw [Node.calls, List.countP_eq_zero]
  intro name hname hcounted
  rcases hc name hcounted with rfl | ⟨i, rfl⟩
  · exact h.entry hname
  · exact h.funcs i hname

/-- Trees that call nothing are apart from the main file. -/
theorem Node.Apart.of_nil {ns : List Node} (h : collect callee? ns = []) : Node.Apart ns := by
  constructor
  · rw [h]
    exact nofun
  · rw [h]
    exact fun _ => nofun

/-- A statement that enters a function calls it, and no other function of the main file. -/
theorem Node.EntersOnce.calls {f : FuncType} {s : Node} (h : s.EntersOnce f)
    (hc : CountsMain counted) : Node.calls counted [s] = if counted f.name then 1 else 0 := by
  have hcall : ∀ args, Node.Apart args →
      Node.calls counted [(Node.call f.name args).withType f.result] =
        if counted f.name then 1 else 0 := by
    intro args hargs
    have hcallees : collect callee? [(Node.call f.name args).withType f.result] =
        f.name :: collect callee? args := Node.callees_call _ _ _
    have hzero : (collect callee? args).countP counted = 0 := hargs.calls_eq_zero hc
    rw [Node.calls, hcallees, List.countP_cons, hzero, Nat.zero_add]
  -- The helper that dumps the result is not counted, so the call of the function is all.
  cases h with
  | dump _ hargs =>
      have hdump : counted "fuzz_dump" = false := by
        rw [Bool.eq_false_iff]
        intro hcounted
        rcases hc _ hcounted with heq | ⟨i, heq⟩
        · exact absurd heq (by decide)
        · refine ne_of_take 2 ?_ heq
          rw [take_mainFuncName]
          decide
      have hrest := hcall _ hargs
      rw [Node.calls] at hrest ⊢
      rw [Node.callees_dump, List.countP_cons_of_neg (by rw [hdump]; decide)]
      exact hrest
  | call _ hargs => exact hcall _ hargs

/-- The calls of statements that enter certain functions, each of one. -/
theorem calls_of_enters {funcs : List FuncDecl} {stmts : List Node}
    (h : List.Forall₂ (fun f s => s.EntersOnce f.type) funcs stmts) (hc : CountsMain counted) :
    Node.calls counted stmts = (funcs.map (·.type.name)).countP counted := by
  induction h with
  | nil => rfl
  | @cons f s funcs stmts hs _ ih =>
      rw [Node.calls_cons, hs.calls hc, ih, List.map_cons, List.countP_cons, Nat.add_comm]

/-- A constructor calls nothing. -/
theorem ClassType.constructors_callees {type : ClassType} {c : ClassRef}
    (hd : d ∈ type.constructors c) : collect callee? d.body = [] := by
  rw [List.eq_nil_iff_forall_not_mem]
  intro name hname
  obtain ⟨s, hs, hrest⟩ := Node.mem_collect.1 hname
  have hmem : name ∈ collect callee? [s] :=
    Node.mem_collect.2 ⟨s, List.mem_singleton_self s, hrest⟩
  rw [((ClassType.constructors_create hd).2 s hs).callees] at hmem
  cases hmem

namespace Program.Parts

/-- The function that calls the others calls each of them once. -/
theorem Built.enters (h : q.Built config t) (ht : t.Ready) :
    List.Forall₂ (fun f s => s.EntersOnce f.type) q.funcs q.entry.body ∧
      "fuzz_visited" ∉ collect callee? q.entry.body := by
  obtain ⟨env, b, -, hsymbols, -, -, hcalls⟩ := h.entry.body
  rw [List.forall₂_map_left_iff] at hcalls
  have hall : List.Forall₂ (fun f s => s.EntersOnce f.type ∧ "fuzz_visited" ∉ collect callee? [s])
      q.funcs q.entry.body := by
    have hmem := (List.forall₂_and_left q.funcs q.entry.body).2 ⟨fun f hf => hf, hcalls⟩
    exact hmem.imp fun f s hs => hs.2.entersOnce h ht hsymbols hs.1
  refine ⟨hall.imp fun f s hs => hs.1, fun hmem => ?_⟩
  obtain ⟨s, hs, hrest⟩ := Node.mem_collect.1 hmem
  refine forall₂_right (hall.imp fun f s hs => hs.2) s hs ?_
  exact Node.mem_collect.2 ⟨s, List.mem_singleton_self s, hrest⟩

/-- A built program whose bodies are apart from its main file, that of the last function aside. -/
theorem Built.apart_body (h : q.Built config t) (ht : t.Ready)
    (hd : d ∈ q.program.guarded ++ q.program.constructors ++ q.funcs) : Node.Apart d.body := by
  rcases List.mem_append.1 hd with hd | hd
  · rcases List.mem_append.1 hd with hd | hd
    · exact ((h.ofGuarded hd).callees h ht).1
    · obtain ⟨type, i, -, hd⟩ := h.ofConstructor hd
      exact .of_nil (ClassType.constructors_callees hd)
  · exact ((h.funcs d hd).1.callees h ht).1

/-- The constants of a built program call nothing. -/
theorem Built.constants_callees (h : q.Built config t) :
    collect callee? q.program.constants = [] := by
  apply Node.callees_of_plain
  intro n hn
  obtain ⟨type, hconst, -⟩ := h.ofConstant hn
  exact hconst.plain.mono fun _ hm => hm.1

/-- The functions of the main file and the constructors of a built program visit no name. -/
theorem Built.not_visits (h : q.Built config t) (ht : t.Ready)
    (hd : d ∈ q.program.mainFunctions ++ q.program.constructors) :
    "fuzz_visited" ∉ collect callee? d.body := by
  rcases List.mem_append.1 hd with hd | hd
  · rw [h.mainFunctions_eq] at hd
    rcases List.mem_append.1 hd with hd | hd
    · exact List.count_eq_zero.1 ((h.funcs d hd).1.callees h ht).2
    · rw [List.mem_singleton.1 hd]
      exact (h.enters ht).2
  · obtain ⟨type, i, -, hd⟩ := h.ofConstructor hd
    rw [ClassType.constructors_callees hd]
    exact nofun

/-! ## Runs of a built program -/

/-- A body that begins with a guard is one of a guarded function, and the guard visits its name. -/
theorem Built.guard_visits (h : q.Built config t) (ht : t.Ready) (hd : d ∈ q.program.callables)
    {key : String} {early rest : List Node} (hbody : d.body = .visitGuard key early :: rest) :
    key = d.type.qualifiedName := by
  rcases List.mem_append.1 (h.callables_perm.mem_iff.1 hd) with hd | hd
  · cases (h.ofGuarded hd).guarded with
    | void _ heq => exact Node.visitGuard_inj (List.cons.inj (hbody.symm.trans heq)).1
    | value _ _ _ heq => exact Node.visitGuard_inj (List.cons.inj (hbody.symm.trans heq)).1
  · refine absurd ?_ (h.not_visits ht hd)
    rw [hbody]
    refine Node.mem_collect.2 ⟨_, List.mem_cons_self, .call "fuzz_visited" [.textLit key], ?_, rfl⟩
    exact Node.mem_subterms_of_args List.mem_cons_self (Node.self_mem_subterms _)

/-- No guarded body is run twice past its guard. -/
theorem Built.guarded_runs (h : q.Built config t) (ht : t.Ready) {ns : List Node} {run : History}
    (hrun : q.program.Acts (.nodes ns) ⟨[], []⟩ run) (hd : d ∈ q.program.guarded) :
    run.ran.count d.type.qualifiedName ≤ 1 := by
  have hmem : d ∈ q.program.callables :=
    h.callables_perm.mem_iff.2 (List.mem_append_left _ hd)
  have hle : run.ran.count d.type.qualifiedName ≤
      if d.type.qualifiedName ∈ run.visited then 1 else 0 := by
    refine hrun.ran_le_of_guarded (fun d' hd' _ _ _ => h.guard_visits ht hd') ?_ trivial
      (Nat.zero_le _)
    intro d' hd' hname
    obtain rfl := List.inj_on_of_nodup_map h.callables_nodup hd' hmem hname
    cases (h.ofGuarded hd).guarded with
    | void _ heq => exact ⟨_, _, heq⟩
    | value _ _ _ heq => exact ⟨_, _, heq⟩
  refine Nat.le_trans hle ?_
  split
  · exact Nat.le_refl 1
  · exact Nat.zero_le 1

/-- A function of the main file is named like one. -/
theorem Built.mainName (h : q.Built config t) (hd : d ∈ q.program.mainFunctions) :
    d.type.name = "main" ∨ ∃ i, d.type.name = mainFuncName i := by
  rw [h.mainFunctions_eq] at hd
  rcases List.mem_append.1 hd with hd | hd
  · exact Or.inr (h.funcName hd)
  · rw [List.mem_singleton.1 hd, h.entry.type]
    exact Or.inl rfl

/-- The functions of a program that are guarded, constructors or of the main file, the last one
aside, call none of those of the main file. -/
theorem Built.calls_body (h : q.Built config t) (ht : t.Ready) {counted : String → Bool}
    (hc : CountsMain counted) (hd : d ∈ q.program.callables) :
    Node.calls counted d.body = 0 ∨ d = q.entry := by
  have happ : d ∈ q.program.guarded ++ q.program.constructors ++ q.funcs ∨ d = q.entry := by
    rcases List.mem_append.1 (h.callables_perm.mem_iff.1 hd) with hd | hd
    · exact Or.inl (List.mem_append_left _ (List.mem_append_left _ hd))
    · rcases List.mem_append.1 hd with hd | hd
      · rw [h.mainFunctions_eq] at hd
        exact (List.mem_append.1 hd).imp (List.mem_append_right _) List.mem_singleton.1
      · exact Or.inl (List.mem_append_left _ (List.mem_append_right _ hd))
  exact happ.imp_left fun hd => (h.apart_body ht hd).calls_eq_zero hc

/-- The functions of the main file have different names. -/
theorem Built.mainNames_nodup (h : q.Built config t) :
    (q.funcs.map (·.type.name) ++ ["main"]).Nodup := by
  have hnames := h.functionNames_nodup
  rw [h.functions_eq, List.map_append, List.map_append, List.map_singleton, h.entry.type] at hnames
  exact hnames.of_append_right

/-- The function that calls the others adds one run at most to those of a function of the main file:
its own, or the one that it calls. -/
theorem Built.entry_weight (h : q.Built config t) (ht : t.Ready) {name : String}
    (hc : CountsMain fun s => s == name || s == "main") :
    Actor.weight (fun s => s == name || s == "main") name (.body q.entry) ≤ 1 := by
  have hcalls := calls_of_enters (h.enters ht).1 hc
  have hcount : (q.funcs.map (·.type.name)).countP (fun s => s == name || s == "main") =
      (q.funcs.map (·.type.name)).count name := by
    refine List.countP_congr fun s hs => ?_
    have hne : s ≠ "main" := by
      rintro rfl
      exact (List.nodup_append.1 h.mainNames_nodup).2.2 _ hs _ (List.mem_singleton_self _) rfl
    simp [hne]
  have hentry : q.entry.type.qualifiedName = "main" := by
    rw [h.entry.type]
    rfl
  have hle := List.nodup_iff_count_le_one.1 h.mainNames_nodup name
  rw [List.count_append, List.count_singleton] at hle
  rw [Actor.weight, hcalls, hcount, hentry, Nat.add_comm]
  simp only [beq_iff_eq] at hle
  exact hle

/-- A function adds at most one run to those of a function of the main file, and only if a call of
it counts. -/
theorem Built.function_weight (h : q.Built config t) (ht : t.Ready) {name : String}
    (hc : CountsMain fun s => s == name || s == "main") {m : FuncDecl}
    (hm : m ∈ q.program.functions) :
    Actor.weight (fun s => s == name || s == "main") name (.body m) ≤
      if m.type.name == name || m.type.name == "main" then 1 else 0 := by
  rcases h.calls_body ht hc (List.mem_append_left _ hm) with hzero | rfl
  · rw [Actor.weight, hzero, h.function_qualifiedName hm]
    by_cases heq : m.type.name = name
    · simp [heq]
    · rw [if_neg heq]
      exact Nat.zero_le _
  · have hentry : q.entry.type.name = "main" := by
      rw [h.entry.type]
      rfl
    rw [hentry, if_pos (by simp)]
    exact h.entry_weight ht hc

/-- A method adds no run to those of a function. -/
theorem Built.method_weight (h : q.Built config t) (ht : t.Ready) {counted : String → Bool}
    (hc : CountsMain counted) (hd : d ∈ q.program.functions) {m : FuncDecl}
    (hm : m ∈ q.program.methods) : Actor.weight counted d.type.name (.body m) = 0 := by
  obtain ⟨i, x, hname⟩ := h.methods_named.2 m hm
  have hne : ∀ f ∈ q.program.functions, m.type.qualifiedName ≠ f.type.name := by
    intro f hf heq
    apply h.functionName_head hf
    rw [← heq, hname]
    simp [className, String.toList_append]
  rcases h.calls_body ht hc (List.mem_append_right _ hm) with hzero | rfl
  · rw [Actor.weight, hzero, if_neg (hne d hd)]
  · have hentry : q.entry ∈ q.program.functions := by
      rw [h.functions_eq]
      simp
    exact absurd (h.function_qualifiedName hentry) (hne q.entry hentry)

/-- No loop of a function or method calls a function of the main file. -/
theorem Built.body_quiet (h : q.Built config t) (ht : t.Ready) {counted : String → Bool}
    (hc : CountsMain counted) (hd : d ∈ q.program.callables) : Actor.Quiet counted (.body d) := by
  rcases h.calls_body ht hc hd with hzero | rfl
  · exact .of_calls_eq_zero hzero
  · -- The function that calls the others has no loop at all.
    intro n hn hloop
    obtain ⟨s, hs, hn⟩ := Node.mem_subtermsList.1 hn
    rw [h.entry.loopFree ht s hs n hn] at hloop
    cases hloop

/-- No function of the main file is run twice. -/
theorem Built.main_runs (h : q.Built config t) (ht : t.Ready) {run : History}
    (hrun : q.program.Acts (.nodes q.program.rootStmts) ⟨[], []⟩ run)
    (hd : d ∈ q.program.mainFunctions) : run.ran.count d.type.qualifiedName ≤ 1 := by
  have hfunction : d ∈ q.program.functions := by
    rw [h.functions_eq, ← h.mainFunctions_eq]
    exact List.mem_append_right _ hd
  have hc : CountsMain fun s => s == d.type.name || s == "main" := by
    intro name hcounted
    rcases Bool.or_eq_true_iff.1 hcounted with heq | heq
    · rw [eq_of_beq heq]
      exact h.mainName hd
    · exact Or.inl (eq_of_beq heq)
  rw [h.function_qualifiedName hfunction]
  rw [h.rootStmts_eq] at hrun
  have hquiet : (Actor.nodes [.call "main" []]).Quiet fun s => s == d.type.name || s == "main" := by
    have hnone : ∀ n ∈ Node.subtermsList [.call "main" []], n.op.isLoop = false := by decide
    intro n hn hloop
    rw [hnone n hn] at hloop
    cases hloop
  -- The run begins with one call, which is all that there is to pay for runs.
  have hone : Actor.weight (fun s => s == d.type.name || s == "main") d.type.name
      (.nodes [.call "main" []]) ≤ 1 := List.countP_le_length
  have hle := hrun.ran_le_of_calls (fun m hm => h.function_weight ht hc hm)
    (fun m hm => h.method_weight ht hc hfunction hm) (fun m hm => h.body_quiet ht hc hm) hquiet
  rw [List.count_nil, Nat.zero_add] at hle
  exact Nat.le_trans hle hone

/-! ## Programs -/

/-- The keys of the guards of a built program differ. -/
theorem Built.keys_nodup (h : q.Built config t) :
    (q.program.guarded.map (·.type.qualifiedName)).Nodup := by
  have hall := (h.callables_perm.map (·.type.qualifiedName)).nodup_iff.1 h.callables_nodup
  rw [List.map_append] at hall
  exact hall.of_append_left

/-- The function that calls the others is called once in a built program. -/
theorem Built.starts_once (h : q.Built config t) (ht : t.Ready) :
    (collect callee? q.program.trees).count "main" = 1 := by
  have hc : CountsMain (· == "main") := fun name heq => Or.inl (eq_of_beq heq)
  have hentry : Node.calls (· == "main") q.entry.body = 0 := by
    rw [calls_of_enters (h.enters ht).1 hc]
    refine List.count_eq_zero.2 fun hmem => ?_
    exact (List.nodup_append.1 h.mainNames_nodup).2.2 _ hmem _ (List.mem_singleton_self _) rfl
  have hbodies : (collect callee? (q.program.callables.flatMap (·.body))).count "main" = 0 := by
    rw [Node.collect_flatMap, List.count_eq_zero]
    intro hmem
    obtain ⟨d, hd, hmem⟩ := List.mem_flatMap.1 hmem
    have hzero : Node.calls (· == "main") d.body = 0 := by
      rcases h.calls_body ht hc hd with hzero | rfl
      · exact hzero
      · exact hentry
    exact List.count_eq_zero.1 hzero hmem
  rw [trees, h.rootStmts_eq, Node.collect_append, Node.collect_append, List.count_append,
    List.count_append, hbodies, h.constants_callees]
  rfl

/-- Recursion in a built program goes through guarded bodies only. -/
theorem Built.guardsRecursion (h : q.Built config t) (ht : t.Ready) :
    q.program.GuardsRecursion q.funcs q.entry where
  mainFunctions := h.mainFunctions_eq
  numbered := h.funcNames
  entryType := h.entry.type
  guarded := fun d hd => (h.ofGuarded hd).guarded
  keys := h.keys_nodup
  visits := fun d hd => ((h.ofGuarded hd).callees h ht).2
  visitsElsewhere := by
    rw [h.rootStmts_eq, Node.collect_append, Node.collect_append, h.constants_callees,
      Node.collect_flatMap, List.append_nil, List.mem_append, not_or]
    refine ⟨by decide, fun hmem => ?_⟩
    obtain ⟨d, hd, hmem⟩ := List.mem_flatMap.1 hmem
    exact h.not_visits ht hd hmem
  apart := fun d hd => h.apart_body ht hd
  enters := (h.enters ht).1
  starts := h.starts_once ht
  startsLast := by
    refine ⟨q.mainFile, ?_, rfl, ?_, h.rootStmts_eq⟩
    · rw [program, List.getLast?_concat]
    · have hnodes : [RootNode.func q.entry, .stmt (.call "main" [])] =
          [RootNode.func q.entry] ++ [.stmt (.call "main" [])] := rfl
      rw [mainFile, hnodes, ← List.append_assoc, ← List.append_assoc, List.getLast?_concat]
  runs := by
    intro run hrun d hd
    rcases List.mem_append.1 hd with hd | hd
    · exact h.guarded_runs ht hrun hd
    · exact h.main_runs ht hrun hd

end Program.Parts

/-- Recursion in a generated program goes through guarded bodies only, whatever the
configuration and whatever the source yields: however the program runs, no body is run twice past
its guard. -/
theorem Program.recursion_guarded {ρ : Type} [WordSource ρ] (source : ρ) (config : Config)
    (attempts : Nat) {p : Program} {g' : Generator ρ}
    (h : Build.program (Generator.start source config attempts) = .ok (p, g')) :
    ∃ funcs entry, p.GuardsRecursion funcs entry := by
  have hcfg : config.Tolerated fun _ => True := Config.tolerated_of_all fun _ => trivial
  obtain ⟨⟨q, hbuilt, rfl⟩, ht⟩ := (Build.program_runs source hcfg trivial attempts).of_ok h
  exact ⟨q.funcs, q.entry, hbuilt.guardsRecursion ht⟩

/-- Guarded recursion in a small program, where a function calls itself. -/
theorem Program.recursion_guarded_small : ∃ p : Program,
    (∃ d ∈ p.guarded, d.type.name ∈ collect callee? d.body) ∧
    ∃ funcs entry, p.GuardsRecursion funcs entry := by
  obtain ⟨p, g', hrun, hcalls⟩ := Build.program_of_check ⟨[], 189⟩ .small 10
    (·.guarded.any fun d => (collect callee? d.body).contains d.type.name) (by decide +kernel)
  obtain ⟨d, hd, hself⟩ := List.any_eq_true.1 hcalls
  exact ⟨p, ⟨d, hd, List.contains_iff_mem.1 hself⟩, Program.recursion_guarded _ _ _ hrun⟩

end TypedPhp
