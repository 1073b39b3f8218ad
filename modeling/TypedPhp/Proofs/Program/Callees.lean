import TypedPhp.Proofs.Exec.Calls
import TypedPhp.Proofs.Program.References

set_option autoImplicit false

/-!
# Functions that bodies call

The functions that are called by name in the bodies of a built program. The functions of the main
file are in no table, so only the function that calls them all names one of them, each once, and
nothing names that function. The helper of guards is named by guards only.
-/

namespace TypedPhp

open Node (collect callee?)

variable {config : Config} {t : SymbolTable} {q : Program.Parts} {env : Env} {n : Node}

/-! ## Names -/

/-- No function of the main file, nor the one that calls them, is called in some trees. -/
structure Node.Apart (ns : List Node) : Prop where
  entry : "main" ∉ collect callee? ns
  funcs : ∀ i, mainFuncName i ∉ collect callee? ns

theorem ne_of_take {x y : String} (k : Nat) (h : x.toList.take k ≠ y.toList.take k) : x ≠ y := by
  rintro rfl
  exact h rfl

theorem take_mainFuncName (i : Nat) : (mainFuncName i).toList.take 2 = ['f', 'n'] := by
  simp [mainFuncName, String.toList_append]

/-- The name can be called in a body that sees a table: it is that of a helper or of a free
function. -/
def SymbolTable.Callable (t : SymbolTable) (name : String) : Prop :=
  (∃ k, (name, k) ∈ bodyHelpers) ∨ ∃ f ∈ t.funcs, f.owner = none ∧ f.name = name

/-- What can be called over the table of a built program is not the helper of guards, and no
function of the main file. -/
theorem Program.Parts.Built.ne_of_callable (h : q.Built config t) {name : String}
    (hname : t.Callable name) :
    name ≠ "fuzz_visited" ∧ name ≠ "main" ∧ ∀ i, name ≠ mainFuncName i := by
  -- Names are told apart by their beginnings, except for those of helpers.
  have hstart : ∀ name : String, name ≠ "fuzz_visited" → name ≠ "main" →
      name.toList.take 2 ≠ ['f', 'n'] →
      name ≠ "fuzz_visited" ∧ name ≠ "main" ∧ ∀ i, name ≠ mainFuncName i := by
    intro name hvisited hmain htake
    refine ⟨hvisited, hmain, fun i => ne_of_take 2 ?_⟩
    rw [take_mainFuncName]
    exact htake
  rcases hname with ⟨k, hk⟩ | ⟨f, hf, howner, rfl⟩
  · have hhelpers : ∀ e ∈ bodyHelpers, e.1 ≠ "fuzz_visited" ∧ e.1 ≠ "main" ∧
        e.1.toList.take 2 ≠ ['f', 'n'] := by decide
    obtain ⟨hvisited, hmain, htake⟩ := hhelpers _ hk
    exact hstart name hvisited hmain htake
  · rcases h.known f hf with hbuiltin | hlib | ⟨i, -, howner', -, -⟩
    · have hbuiltins : ∀ f ∈ Catalog.builtins, f.name ≠ "fuzz_visited" ∧ f.name ≠ "main" ∧
          f.name.toList.take 2 ≠ ['f', 'n'] := by decide
      obtain ⟨hvisited, hmain, htake⟩ := hbuiltins f hbuiltin
      exact hstart f.name hvisited hmain htake
    · obtain ⟨d, hd, rfl⟩ := List.mem_map.1 hlib
      obtain ⟨i, k, hname⟩ := h.libName hd
      have hhead : (libFuncName i k).toList.take 1 = ['l'] := by
        simp [libFuncName, String.toList_append]
      rw [hname]
      refine ⟨?_, ?_, fun j => ?_⟩
      · exact ne_of_take 1 (by rw [hhead]; decide)
      · exact ne_of_take 1 (by rw [hhead]; decide)
      · refine ne_of_take 1 ?_
        rw [hhead]
        simp [mainFuncName, String.toList_append]
    · rw [howner] at howner'
      cases howner'

/-! ## Calls of linked nodes -/

theorem Node.callee?_of_plain (h : n.op.refers = false) : n.callee? = none := by
  unfold callee?
  split
  · cases h
  · rfl

/-- Trees without nodes that refer to something name no function. -/
theorem Node.callees_of_plain {ns : List Node}
    (h : ∀ n ∈ ns, n.Every fun m => m.op.refers = false) : collect callee? ns = [] := by
  rw [List.eq_nil_iff_forall_not_mem]
  intro name hname
  obtain ⟨n, hn, m, hm, hcallee⟩ := Node.mem_collect.1 hname
  rw [Node.callee?_of_plain (h n hn m hm)] at hcallee
  cases hcallee

/-- The function that a linked node calls is a helper or a free function. -/
theorem Node.Linked.callee {helpers : List (String × Nat)} {name : String}
    (h : n.Linked env helpers) (hname : n.callee? = some name) :
    (∃ k, (name, k) ∈ helpers) ∨ ∃ f ∈ env.symbols.funcs, f.owner = none ∧ f.name = name := by
  cases h with
  | plain hop =>
      rw [Node.callee?_of_plain hop] at hname
      cases hname
  | new _ _ => cases hname
  | prop _ _ => cases hname
  | helper hmem =>
      obtain rfl := Option.some.inj hname
      exact Or.inl ⟨_, hmem⟩
  | call hf howner _ _ =>
      obtain rfl := Option.some.inj hname
      exact Or.inr ⟨_, hf, howner, rfl⟩
  | methodCall _ _ _ _ _ => cases hname

/-- The functions that linked trees call can be called. -/
theorem Node.AllLinked.callable {helpers : List (String × Nat)} {ns : List Node}
    (hhelpers : helpers ⊆ bodyHelpers) (h : ∀ n ∈ ns, n.AllLinked env helpers) :
    ∀ name ∈ collect callee? ns, env.symbols.Callable name := by
  intro name hname
  obtain ⟨n, hn, m, hm, hcallee⟩ := Node.mem_collect.1 hname
  refine ((h n hn m hm).callee hcallee).imp_left ?_
  rintro ⟨k, hk⟩
  exact ⟨k, hhelpers hk⟩

/-- Trees that call only what can be called are apart from the main file. -/
theorem Program.Parts.Built.apart (h : q.Built config t) {ns : List Node}
    (hns : ∀ name ∈ collect callee? ns, t.Callable name) : Node.Apart ns where
  entry := fun hmem => (h.ne_of_callable (hns _ hmem)).2.1 rfl
  funcs := fun i hmem => (h.ne_of_callable (hns _ hmem)).2.2 i rfl

/-! ## Calls of bodies -/

/-- The body of a built function after its guard calls only what can be called. -/
theorem FuncDecl.Built.callable (ht : t.Ready) {isGuarded : Bool} {d : FuncDecl}
    (hd : d.Built config t isGuarded) :
    ∃ guards stmts, d.body = guards ++ stmts ∧ Guards d.type isGuarded guards ∧
      ∀ name ∈ collect callee? stmts, t.Callable name := by
  obtain ⟨guards, stmts, g, heq, hguards, hbegun, hstmts⟩ := hd.linked ht
  refine ⟨guards, stmts, heq, hguards, fun name hname => ?_⟩
  obtain ⟨s, hs, m, hm, hcallee⟩ := Node.mem_collect.1 hname
  obtain ⟨g', hsame, -, hlinked⟩ := hstmts s hs m hm
  have hcallable := hlinked.callee hcallee
  rw [show g'.env.symbols = t from hsame.symbols.trans hbegun.symbols] at hcallable
  exact hcallable

/-- A guard calls its helper, once. -/
theorem Guards.callees {f : FuncType} {guards : List Node} (h : Guards f true guards) :
    collect callee? guards = ["fuzz_visited"] := by
  have hguard : ∀ early : Node, (early.Every fun m => m.op.refers = false) →
      collect callee? [.visitGuard f.qualifiedName [early]] = ["fuzz_visited"] := by
    intro early hearly
    have hblock : collect callee? [.block [early]] = [] :=
      Node.callees_of_plain (List.forall_mem_singleton.2 (.one rfl hearly))
    have hcond : collect callee? [.call "fuzz_visited" [.textLit f.qualifiedName]] =
        ["fuzz_visited"] := rfl
    rw [Node.visitGuard, Node.ifThen, Node.ofArgs, Node.collect_node, Node.collect_cons, hblock,
      hcond]
    rfl
  cases h with
  | void _ => exact hguard _ (.leaf rfl)
  | value _ hx => exact hguard _ (.one rfl (hx.constant.plain.mono fun _ hm => hm.1))

/-- A built function is apart from the main file, and calls the helper of guards in its guard
only. -/
theorem FuncDecl.Built.callees (h : q.Built config t) (ht : t.Ready) {isGuarded : Bool}
    {d : FuncDecl} (hd : d.Built config t isGuarded) :
    Node.Apart d.body ∧
      (collect callee? d.body).count "fuzz_visited" = if isGuarded then 1 else 0 := by
  obtain ⟨guards, stmts, heq, hguards, hcallable⟩ := hd.callable ht
  have hstmts := h.apart hcallable
  have hvisited : (collect callee? stmts).count "fuzz_visited" = 0 :=
    List.count_eq_zero.2 fun hmem => (h.ne_of_callable (hcallable _ hmem)).1 rfl
  -- Statements call what is in the table, so the helper of guards is called in a guard only.
  cases isGuarded with
  | false =>
      cases hguards
      rw [heq, List.nil_append]
      exact ⟨hstmts, hvisited⟩
  | true =>
      have hbody : collect callee? d.body = "fuzz_visited" :: collect callee? stmts := by
        rw [heq, Node.collect_append, hguards.callees]
        rfl
      refine ⟨⟨?_, fun i => ?_⟩, ?_⟩
      · rw [hbody, List.mem_cons, not_or]
        exact ⟨by decide, hstmts.entry⟩
      · rw [hbody, List.mem_cons, not_or]
        refine ⟨ne_of_take 2 ?_, hstmts.funcs i⟩
        rw [take_mainFuncName]
        decide
      · rw [hbody, List.count_cons_self, hvisited]
        rfl

theorem Node.Creates.callees {type : ClassType} {c : ClassRef} {s : Node} (h : s.Creates type c) :
    collect callee? [s] = [] := by
  obtain ⟨-, -, -⟩ := h
  rfl

/-! ## The function that calls the others -/

/-- A statement calls a function of the main file once, in a dump if what it returns can be dumped,
with arguments that are apart from the main file. -/
inductive Node.EntersOnce (f : FuncType) : Node → Prop where
  | dump {args : List Node} : f.result.canDump = true → Node.Apart args → EntersOnce f
      (.call "fuzz_dump" [.name "__LINE__", (Node.call f.name args).withType f.result])
  | call {args : List Node} : f.result.canDump = false → Node.Apart args →
      EntersOnce f ((Node.call f.name args).withType f.result)

/-- The functions that a call names: its own, and those of its arguments. -/
theorem Node.callees_call (name : String) (args : List Node) (t : Option Ty) :
    collect callee? [.mk .call (.name name :: args) none t] = name :: collect callee? args := by
  rw [Node.collect_node, Node.collect_cons]
  rfl

/-- The functions that a dump names: the helper, and those of the value. -/
theorem Node.callees_dump (x : Node) : collect callee? [.call "fuzz_dump" [.name "__LINE__", x]] =
    "fuzz_dump" :: collect callee? [x] := by
  rw [Node.call, Node.ofArgs, Node.callees_call, Node.collect_cons]
  rfl

/-- A call of a function of the main file calls it once, and never the helper of guards. -/
theorem EntryCall.entersOnce (h : q.Built config t) (ht : t.Ready) (henv : env.symbols = t) {b : Nat}
    {m : FuncDecl} (hm : m ∈ q.funcs) (hn : EntryCall env b m.type n) :
    n.EntersOnce m.type ∧ "fuzz_visited" ∉ collect callee? [n] := by
  subst henv
  have hcallable : ∀ args, Passes env b m.type args →
      ∀ name ∈ collect callee? args, env.symbols.Callable name := by
    intro args hargs
    have hhelpers : operatorHelpers ⊆ bodyHelpers := by decide
    refine Node.AllLinked.callable hhelpers fun x hx => ?_
    obtain ⟨p, hzip⟩ := exists_mem_zip hargs.notMore hx
    exact (hargs.values p x hzip).linked ht.closed
      ((h.funcs m hm).1.drawn.within p (List.of_mem_zip hzip).1)
  have hcall : ∀ args, Passes env b m.type args → "fuzz_visited" ∉
      collect callee? [(Node.call m.type.name args).withType m.type.result] := by
    intro args hargs
    obtain ⟨i, hi⟩ := h.funcName hm
    have hown : "fuzz_visited" ≠ m.type.name := by
      rw [hi]
      refine ne_of_take 2 ?_
      rw [take_mainFuncName]
      decide
    have hcallees : collect callee? [(Node.call m.type.name args).withType m.type.result] =
        m.type.name :: collect callee? args := Node.callees_call _ _ _
    rw [hcallees, List.mem_cons, not_or]
    exact ⟨hown, fun hmem => (h.ne_of_callable (hcallable args hargs _ hmem)).1 rfl⟩
  cases hn with
  | dump hdump hargs =>
      refine ⟨.dump hdump (h.apart (hcallable _ hargs)), ?_⟩
      rw [Node.callees_dump, List.mem_cons, not_or]
      exact ⟨by decide, hcall _ hargs⟩
  | call hdump hargs => exact ⟨.call hdump (h.apart (hcallable _ hargs)), hcall _ hargs⟩

end TypedPhp
