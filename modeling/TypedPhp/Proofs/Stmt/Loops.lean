import TypedPhp.Proofs.Exec.Basic
import TypedPhp.Proofs.Stmt.Formed

set_option autoImplicit false

/-!
# Loop counters

Every loop that is built has a counter of its own, which is set to zero right before the loop and
stepped by its condition, and which nothing else touches: neither expressions nor assignments, since
counters are in no scope, nor another loop, since their numbers are never taken twice. The induction
follows the grammar of statements, with the range of numbers that a step takes (`Paces`).
-/

namespace TypedPhp

open Node (collect varName? Lists)

/-- The loop counter of a number. -/
def counter (i : Nat) : String := "_c" ++ toString i

/-! ## Lists of loops -/

/-- Every loop of a statement list counts up to a limit, with a variable that satisfies a
condition and that is set to zero by the statement right before the loop. -/
def LoopsCount (limit : Nat) (Own : String → Prop) (ns : List Node) : Prop :=
  ∀ before m after, ns = before ++ m :: after → m.op.isLoop = true →
    ∃ earlier name n, before = earlier ++ [.resetCounter name] ∧ m.Counts name n ∧ 1 ≤ n ∧
      n ≤ limit ∧ Own name

/-- A property of all statement lists of a body. -/
def Throughout (Q : List Node → Prop) (ns : List Node) : Prop := ∀ l, Lists ns l → Q l

section Lists

variable {limit : Nat} {Own More : String → Prop} {Q R : List Node → Prop} {ns ms : List Node}

theorem LoopsCount.of_none (h : ∀ m ∈ ns, m.op.isLoop = false) : LoopsCount limit Own ns := by
  rintro before m after rfl hloop
  rw [h m (List.mem_append_right _ List.mem_cons_self)] at hloop
  cases hloop

theorem LoopsCount.mono (h : LoopsCount limit Own ns) (hle : ∀ name, Own name → More name) :
    LoopsCount limit More ns := by
  intro before m after hns hloop
  obtain ⟨earlier, name, n, hbefore, hcounts, hlow, hhigh, hown⟩ := h before m after hns hloop
  exact ⟨earlier, name, n, hbefore, hcounts, hlow, hhigh, hle name hown⟩

/-- Two lists in a row. -/
theorem LoopsCount.append (h : LoopsCount limit Own ns) (h' : LoopsCount limit Own ms) :
    LoopsCount limit Own (ns ++ ms) := by
  intro before m after heq hloop
  rcases List.append_eq_append_iff.1 heq with ⟨as, hbefore, hms⟩ | ⟨as, hns, hafter⟩
  · obtain ⟨earlier, name, n, rfl, hrest⟩ := h' as m after hms hloop
    exact ⟨ns ++ earlier, name, n, by rw [hbefore, List.append_assoc], hrest⟩
  · cases as with
    | nil =>
        obtain ⟨earlier, name, n, hbefore, -⟩ := h' [] m after hafter.symm hloop
        cases earlier <;> cases hbefore
    | cons a as =>
        obtain ⟨rfl, hafter⟩ := List.cons.inj hafter
        exact h before m as hns hloop

theorem Throughout.of (h : Q ns) (hinner : ∀ s ∈ ns, ∀ body ∈ s.bodies, Throughout Q body) :
    Throughout Q ns := by
  intro l hl
  cases hl with
  | self => exact h
  | inner hs hbody hl => exact hinner _ hs _ hbody l hl

theorem Throughout.inside (h : Throughout Q ns) {s : Node} (hs : s ∈ ns) {body : List Node}
    (hbody : body ∈ s.bodies) : Throughout Q body :=
  fun l hl => h l (.inner hs hbody hl)

theorem Throughout.mono (h : Throughout Q ns) (hQR : ∀ l, Q l → R l) : Throughout R ns :=
  fun l hl => hQR l (h l hl)

end Lists

/-- The assignment of zero sets the variable to zero. -/
theorem Exec.reset {name : String} {o : Outcome} {σ σ' : Store}
    (h : Exec (.stmt (.resetCounter name)) σ o σ') : σ' name = 0 := by
  generalize hn : Node.resetCounter name = n at h
  generalize hc : Code.stmt n = c at h
  cases h with
  | simple _ _ hne _ =>
      obtain rfl := Code.stmt.inj hc
      exact absurd hn.symm (hne name .int 0)
  | setInt name' t v σ =>
      obtain rfl := Code.stmt.inj hc
      simp only [Node.resetCounter, Node.assign, Node.var, Node.intLit, Node.lit, Node.ofArgs,
        Node.mk.injEq, List.cons.injEq, Option.some.injEq, Payload.ident.injEq,
        Payload.literal.injEq, Literal.int.injEq, and_true, true_and] at hn
      obtain ⟨⟨rfl, -⟩, -, rfl, -⟩ := hn
      exact Function.update_self ..
  | returnJump hop _ =>
      obtain rfl := Code.stmt.inj hc
      subst hn
      rcases hop with hop | hop <;> cases hop
  | nil | cons _ _ | left _ _ | noRounds | round _ _ _ _ => cases hc
  -- No other statement is an assignment.
  | _ =>
      obtain rfl := Code.stmt.inj hc
      cases hn

/-- A run that comes to a loop enters it with its counter at zero, so the loop starts its body
at most as often as it counts. -/
theorem Comes.starts_le {limit : Nat} {Own : String → Prop} {ns : List Node} {σ σ' : Store}
    {m : Node} (h : Throughout (LoopsCount limit Own) ns) (hm : m.op.isLoop = true)
    (hcomes : Comes ns σ m σ') :
    ∃ name n, m.Counts name n ∧ n ≤ limit ∧ ∀ k σ'', Starts m k σ' σ'' → k ≤ n := by
  -- The statement that is run is followed along its list, with what has been run right before it.
  have hlist : ∀ earlier, Throughout (LoopsCount limit Own) (earlier ++ ns) →
      (∀ before s, earlier = before ++ [s] → ∃ σ₀, Exec (.stmt s) σ₀ .normal σ) →
      ∃ name n, m.Counts name n ∧ n ≤ limit ∧ ∀ k σ'', Starts m k σ' σ'' → k ≤ n := by
    clear h
    induction hcomes with
    | here n ns σ =>
        intro earlier hall hlast
        obtain ⟨before, name, c, rfl, hcounts, hpos, hle, -⟩ :=
          hall _ (.self _) earlier n ns rfl hm
        obtain ⟨σ₀, hreset⟩ := hlast before _ rfl
        exact ⟨name, c, hcounts, hle, fun k σ'' hstarts =>
          hstarts.le_of_counts hcounts hpos hreset.reset⟩
    | inside hopens _ ih =>
        intro earlier hall _
        refine ih hm [] ?_ ?_
        · exact hall.inside (List.mem_append_right _ List.mem_cons_self) hopens.mem_bodies
        · intro before s hnil
          cases before <;> cases hnil
    | @next n m ns σ σ₁ σ' hrun _ ih =>
        intro earlier hall _
        refine ih hm (earlier ++ [n]) ?_ ?_
        · rw [List.append_assoc]
          exact hall
        · intro before s heq
          obtain ⟨-, hs⟩ := List.append_inj' heq rfl
          obtain rfl := List.singleton_inj.1 hs
          exact ⟨σ, hrun⟩
  refine hlist [] h ?_
  intro before s hnil
  cases before <;> cases hnil

/-! ## Counters of a range -/

/-- A statement list paces its loops with the counters of a range: each of them has one, which
stands at two places of the list only; no counter out of the range stands there at all. -/
structure Paces (limit low high : Nat) (ns : List Node) : Prop where
  fresh : ∀ i, i < low ∨ high ≤ i → counter i ∉ collect varName? ns
  loops : Throughout (LoopsCount limit fun name =>
    ∃ i, low ≤ i ∧ i < high ∧ name = counter i ∧ (collect varName? ns).count name = 2) ns

namespace Paces

variable {limit low mid high : Nat} {ns ms body : List Node} {n m : Node}

theorem nil : Paces limit low low [] where
  fresh := fun _ _ => nofun
  loops := Throughout.of (LoopsCount.of_none nofun) nofun

/-- A statement that holds no other one, with no counter in it. -/
theorem simple (hbodies : n.bodies = []) (hloop : n.op.isLoop = false)
    (h : ∀ i, counter i ∉ collect varName? [n]) : Paces limit low low [n] where
  fresh := fun i _ => h i
  loops := by
    apply Throughout.of
    · exact LoopsCount.of_none (List.forall_mem_singleton.2 hloop)
    · rw [List.forall_mem_singleton, hbodies]
      exact nofun

/-- Two lists in a row, with ranges in a row. -/
theorem append (h : Paces limit low mid ns) (h' : Paces limit mid high ms) (hlow : low ≤ mid)
    (hhigh : mid ≤ high) : Paces limit low high (ns ++ ms) := by
  -- A counter of one range stands in the list of that range only.
  have hns : Throughout (LoopsCount limit fun name => ∃ i, low ≤ i ∧ i < high ∧
      name = counter i ∧ (collect varName? (ns ++ ms)).count name = 2) ns := by
    refine h.loops.mono fun l hl => hl.mono fun name hname => ?_
    obtain ⟨i, hi, hi', rfl, hcount⟩ := hname
    refine ⟨i, hi, by omega, rfl, ?_⟩
    rw [Node.collect_append, List.count_append, hcount,
      List.count_eq_zero.2 (h'.fresh i (by omega))]
  have hms : Throughout (LoopsCount limit fun name => ∃ i, low ≤ i ∧ i < high ∧
      name = counter i ∧ (collect varName? (ns ++ ms)).count name = 2) ms := by
    refine h'.loops.mono fun l hl => hl.mono fun name hname => ?_
    obtain ⟨i, hi, hi', rfl, hcount⟩ := hname
    refine ⟨i, by omega, hi', rfl, ?_⟩
    rw [Node.collect_append, List.count_append, hcount,
      List.count_eq_zero.2 (h.fresh i (by omega))]
  constructor
  · intro i hi
    rw [Node.collect_append, List.mem_append, not_or]
    exact ⟨h.fresh i (by omega), h'.fresh i (by omega)⟩
  · apply Throughout.of
    · exact (hns ns (.self ns)).append (hms ms (.self ms))
    · intro s hs b hb
      rcases List.mem_append.1 hs with hs | hs
      · exact hns.inside hs hb
      · exact hms.inside hs hb

/-- A statement around others that is no loop and adds no counter. -/
theorem around (h : Paces limit low high ns) (hloop : n.op.isLoop = false)
    (hcount : ∀ i, (collect varName? [n]).count (counter i) = (collect varName? ns).count (counter i))
    (hbodies : ∀ b ∈ n.bodies, ∀ l, Lists b l → Lists ns l ∨ ∀ m ∈ l, m.op.isLoop = false) :
    Paces limit low high [n] := by
  constructor
  · intro i hi
    rw [← List.count_eq_zero, hcount, List.count_eq_zero]
    exact h.fresh i hi
  · apply Throughout.of
    · exact LoopsCount.of_none (List.forall_mem_singleton.2 hloop)
    · intro s hs b hb l hl
      obtain rfl := List.mem_singleton.1 hs
      rcases hbodies b hb l hl with hl | hnone
      · refine (h.loops l hl).mono fun name hname => ?_
        obtain ⟨i, hi, hi', rfl, htwo⟩ := hname
        exact ⟨i, hi, hi', rfl, by rw [hcount, htwo]⟩
      · exact .of_none hnone

theorem lists_of_eq {b l : List Node} (hb : b ∈ [ns]) (hl : Lists b l) :
    Lists ns l ∨ ∀ m ∈ l, m.op.isLoop = false := by
  obtain rfl := List.mem_singleton.1 hb
  exact Or.inl hl

/-- The lists of one statement of a list, if that is no loop. -/
theorem lists_of_mem {l : List Node} (hm : m ∈ ns) (hloop : m.op.isLoop = false)
    (hl : Lists [m] l) : Lists ns l ∨ ∀ m ∈ l, m.op.isLoop = false := by
  cases hl with
  | self => exact Or.inr (List.forall_mem_singleton.2 hloop)
  | inner hs hbody hl =>
      obtain rfl := List.mem_singleton.1 hs
      exact Or.inl (.inner hm hbody hl)

theorem block (h : Paces limit low high ns) : Paces limit low high [.block ns] :=
  h.around rfl (fun i => by rw [Node.block, Node.variables_ofArgs]) fun _ hb _ hl =>
    lists_of_eq hb hl

/-- How often a counter stands in its own name. -/
theorem count_counter (i j : Nat) : [counter j].count (counter i) = if i = j then 1 else 0 := by
  rw [List.count_singleton]
  by_cases hij : i = j
  · rw [if_pos hij, hij, beq_self_eq_true, if_pos rfl]
  · have hne : (counter j == counter i) = false := by
      rw [beq_eq_false_iff_ne]
      exact fun heq => hij (numbered_inj heq).symm
    rw [if_neg hij, hne]
    rfl

/-- A loop, with the reset of its counter. -/
theorem loop {count : Nat} (h : Paces limit (low + 1) high body) (hhigh : low + 1 ≤ high)
    (hbodies : m.bodies = [[.block body]]) (hcounts : m.Counts (counter low) count)
    (hpos : 1 ≤ count) (hlimit : count ≤ limit)
    (hvars : ∀ i, (collect varName? [m]).count (counter i) =
      (if i = low then 1 else 0) + (collect varName? body).count (counter i)) :
    Paces limit low high [.resetCounter (counter low), m] := by
  have hall : ∀ i, (collect varName? [.resetCounter (counter low), m]).count (counter i) =
      (if i = low then 2 else 0) + (collect varName? body).count (counter i) := by
    intro i
    have hreset : collect varName? [.resetCounter (counter low)] = [counter low] := rfl
    rw [Node.collect_cons, hreset, List.count_append, count_counter, hvars]
    split <;> omega
  have hbody : (collect varName? body).count (counter low) = 0 :=
    List.count_eq_zero.2 (h.fresh low (by omega))
  constructor
  · intro i hi
    have hne : i ≠ low := by omega
    rw [← List.count_eq_zero, hall, if_neg hne, List.count_eq_zero.2 (h.fresh i (by omega))]
  · apply Throughout.of
    -- The reset stands at the head of the list, and the loop right after it.
    · intro before n after heq hloop
      have htwo : (collect varName? [.resetCounter (counter low), m]).count (counter low) = 2 := by
        rw [hall, if_pos rfl, hbody]
      cases before with
      | nil =>
          obtain ⟨rfl, -⟩ := List.cons.inj heq
          cases hloop
      | cons r before =>
          obtain ⟨rfl, htail⟩ := List.cons.inj heq
          cases before with
          | nil =>
              obtain ⟨rfl, -⟩ := List.cons.inj htail
              exact ⟨[], counter low, count, rfl, hcounts, hpos, hlimit, low, Nat.le_refl _,
                hhigh, rfl, htwo⟩
          | cons r' before =>
              obtain ⟨-, hnil⟩ := List.cons.inj htail
              cases before <;> cases hnil
    · intro s hs b hb
      rcases List.mem_cons.1 hs with rfl | hs
      · cases hb
      · obtain rfl := List.mem_singleton.1 hs
        rw [hbodies, List.mem_singleton] at hb
        subst hb
        refine h.block.loops.mono fun l hl => hl.mono fun name hname => ?_
        obtain ⟨i, hi, hi', rfl, htwo⟩ := hname
        refine ⟨i, by omega, hi', rfl, ?_⟩
        rw [Node.block, Node.variables_ofArgs] at htwo
        rw [hall, if_neg (by omega), htwo]

end Paces

/-! ## Steps of the grammar -/

variable {g g' : Generator Unit} {n : Node}

/-- No counter stands in an expression that is formed over other variables. -/
theorem counter_not_mem {known : ScopeVar → Prop} (hknown : ∀ v, known v → ∀ i, v.name ≠ counter i)
    (h : n.Every (Node.Formed known)) (i : Nat) : counter i ∉ collect varName? [n] := by
  intro hmem
  obtain ⟨x, hx, m, hsub, hname⟩ := Node.mem_collect.1 hmem
  rw [List.mem_singleton.1 hx] at hsub
  unfold Node.varName? at hname
  split at hname
  · rename_i hop
    obtain ⟨v, hv, rfl⟩ := h.varNode hsub hop
    exact hknown v hv i (Option.some.inj hname)
  · cases hname

/-- A state in which statements are built that pace their loops: a frame is open, no variable in
scope is a counter, and the bound on loops is a 64-bit integer. -/
structure Generator.Pacing (g : Generator Unit) : Prop where
  isOpen : g.scope.counts ≠ []
  uncounted : ∀ v ∈ g.scope.vars, ∀ i, v.name ≠ counter i
  castable : g.symbols.Castable
  bounded : g.config.maxLoopIterations < Nat.pow 2 63

namespace Generator.Pacing

/-- A state after others. -/
theorem advance (hg : g.Pacing) (h : Advances g g') : g'.Pacing where
  isOpen := h.isOpen
  uncounted := by
    intro v hv i
    rcases h.scope.mem_vars hv with hv | ⟨-, j, -, -, hname⟩
    · exact hg.uncounted v hv i
    · rw [hname]
      exact var_ne_counter j i
  castable := by
    rw [h.sameFunction.symbols]
    exact hg.castable
  bounded := by
    rw [h.sameFunction.config]
    exact hg.bounded

/-- No counter stands in an expression that is formed over what can be read. -/
theorem not_mem (hg : g.Pacing) (h : g.env.Formed n) (i : Nat) :
    counter i ∉ collect varName? [n] := by
  refine counter_not_mem (fun v hv i => ?_) h i
  rcases hv with hv | ⟨c, -, rfl⟩
  · exact hg.uncounted v (Scope.mem_vars_of_mem_visible hv) i
  · apply ne_of_head
    simp [counter, String.toList_append]

/-- No counter stands in a node that is made up of formed expressions. -/
theorem not_mem_ofArgs (hg : g.Pacing) {op : Op} {args : List Node}
    (h : ∀ x ∈ args, g.env.Formed x) (i : Nat) : counter i ∉ collect varName? [.ofArgs op args] := by
  rw [Node.variables_ofArgs]
  intro hmem
  obtain ⟨x, hx, hrest⟩ := Node.mem_collect.1 hmem
  exact hg.not_mem (h x hx) i (Node.mem_collect.2 ⟨x, List.mem_singleton.2 rfl, hrest⟩)

end Generator.Pacing

/-- The step paces its loops with the counters that it takes. -/
def Effect.Paced (one : Effect) : Prop :=
  ∀ {g ns g'}, g.Pacing → one g ns g' →
    Paces g.config.maxLoopIterations g.nextCounter g'.nextCounter ns

/-- A declaration paces its loops: it has none. -/
theorem declares_paced : Effect.Paced Declares := by
  intro g ns g' hg h
  obtain ⟨hty, -, hinit, -⟩ := h
  rename_i t x s
  refine .simple rfl rfl fun i => ?_
  rw [Node.assign, Node.variables_ofArgs, Node.collect_cons, List.mem_append, not_or]
  refine ⟨?_, hg.not_mem (hinit.formed hg.castable hty) i⟩
  exact fun hmem => var_ne_counter _ _ (List.mem_singleton.1 hmem).symm

section Paced

variable {one : Effect} (hadv : one.Advancing) (hone : one.Paced)

include hadv hone

/-- Repetitions pace their loops. -/
theorem repeats_paced {k : Nat} : Effect.Paced (Repeats one k) := by
  intro g ns g' hg h
  induction h with
  | none g => exact .nil
  | jump h _ => exact hone hg h
  | next h _ hrest ih =>
      have hfirst := hadv hg.isOpen h
      have htail := repeats_advances hadv hfirst.isOpen hrest
      have hpaces := ih (hg.advance hfirst)
      rw [hfirst.sameFunction.config] at hpaces
      exact (hone hg h).append hpaces hfirst.counters htail.counters

/-- The statements of a block pace their loops. -/
theorem blocks_paced : Effect.Paced (Blocks one) := by
  intro g ns g'' hg h
  obtain ⟨⟨h⟩, -⟩ := h
  have hin : Generator.Pacing { g with scope := g.scope.enter, stmtDepth := g.stmtDepth + 1 } :=
    ⟨by simp [Scope.enter], hg.uncounted, hg.castable, hg.bounded⟩
  have hstmts := repeats_paced hadv hone hin h
  exact hstmts

/-- The statements of a case pace their loops. -/
theorem caseBody_paced : Effect.Paced (CaseBody one) := by
  intro g ns g'' hg h
  obtain ⟨⟨h⟩, -⟩ := h
  have hin : Generator.Pacing { g with
      scope := g.scope.enter
      stmtDepth := g.stmtDepth + 1
      jumps := .switch :: g.jumps } :=
    ⟨by simp [Scope.enter], hg.uncounted, hg.castable, hg.bounded⟩
  cases h with
  | plain _ h =>
      have hstmts := repeats_paced hadv hone hin h
      exact hstmts
  | broken _ h _ =>
      have hstmts := repeats_paced hadv hone hin h
      refine hstmts.append (.simple rfl rfl fun i => List.not_mem_nil) ?_ (Nat.le_refl _)
      exact (repeats_advances hadv hin.isOpen h).counters

/-- The cases of a switch pace their loops. -/
theorem cases_paced {t : Ty} {k : Nat} {seen : List Literal} {ns : List Node} (hg : g.Pacing)
    (h : Cases one t k seen g ns g') :
    Paces g.config.maxLoopIterations g.nextCounter g'.nextCounter ns ∧
      ∀ c ∈ ns, c.op.isLoop = false := by
  induction h with
  | none g seen => exact ⟨.nil, nofun⟩
  | repetition _ _ _ ih => exact ih hg
  | @case _ _ g g' g'' body rest l hl _ hbody hrest ih =>
      have hkeep := caseBody_keeps hadv hbody
      have hkeep' := cases_keeps hadv hrest
      obtain ⟨hpaces, hloop⟩ := ih (hg.advance (hkeep.advances hg.isOpen))
      rw [hkeep.sameFunction.config] at hpaces
      refine ⟨?_, List.forall_mem_cons.2 ⟨rfl, hloop⟩⟩
      change Paces _ _ _ ([_] ++ rest)
      refine Paces.append ?_ hpaces hkeep.counters hkeep'.counters
      refine (caseBody_paced hadv hone hg hbody).around rfl (fun i => ?_) fun _ hb _ hl =>
        Paces.lists_of_eq hb hl
      have hformed : (Node.lit l).Every (Node.Formed fun _ => False) := .lit l
      have hlit := counter_not_mem (fun _ => nofun) hformed i
      rw [Node.variables_ofArgs, Node.collect_cons, List.count_append,
        List.count_eq_zero.2 hlit, Nat.zero_add]

/-- The default of a switch paces its loops. -/
theorem defaults_paced {ns : List Node} (hg : g.Pacing) (h : Defaults one g ns g') :
    Paces g.config.maxLoopIterations g.nextCounter g'.nextCounter ns ∧
      ∀ c ∈ ns, c.op.isLoop = false := by
  cases h with
  | none => exact ⟨.nil, nofun⟩
  | body h =>
      refine ⟨?_, List.forall_mem_singleton.2 rfl⟩
      exact (caseBody_paced hadv hone hg h).around rfl
        (fun i => by rw [Node.variables_ofArgs]) fun _ hb _ hl => Paces.lists_of_eq hb hl

/-- A loop paces itself and the loops inside it. -/
theorem loop_paced {body : List Node} {m : Node} {limit : Nat} (hg : g.Pacing)
    (h : Targets (Blocks one) .loop { g with nextCounter := g.nextCounter + 1 } body g')
    (hpos : 1 ≤ limit) (hlimit : limit ≤ g.config.maxLoopIterations)
    (hbodies : m.bodies = [[.block body]])
    (hvars : ∀ i, (collect varName? [m]).count (counter i) =
      (if i = g.nextCounter then 1 else 0) + (collect varName? body).count (counter i))
    (hcounts : counter g.nextCounter ∉ collect varName? body →
      m.Counts (counter g.nextCounter) limit) :
    Paces g.config.maxLoopIterations g.nextCounter g'.nextCounter
      [.resetCounter (counter g.nextCounter), m] := by
  have hkeep := targets_keeps (blocks_keeps hadv) h
  obtain ⟨h⟩ := h
  have hin : Generator.Pacing { g with
      nextCounter := g.nextCounter + 1
      jumps := .loop :: g.jumps } := ⟨hg.isOpen, hg.uncounted, hg.castable, hg.bounded⟩
  have hbody := blocks_paced hadv hone hin h
  refine Paces.loop hbody hkeep.counters hbodies (hcounts ?_) hpos hlimit hvars
  exact hbody.fresh _ (Or.inl (Nat.lt_succ_self _))

end Paced

/-! ## Statements -/

/-- An assignment to a place paces its loops: it has none. -/
theorem assigns_paced {t : Ty} {place : Node} {ns : List Node} (hg : g.Pacing)
    (hplace : Place g.env t place) (h : Assigns g.env g.budget t place ns) :
    Paces g.config.maxLoopIterations g.nextCounter g.nextCounter ns := by
  have hassign : ∀ x, g.env.Formed x → Paces g.config.maxLoopIterations g.nextCounter
      g.nextCounter [.assign place x] := by
    intro x hx
    refine .simple rfl rfl (hg.not_mem_ofArgs fun y hy => ?_)
    rcases List.mem_cons.1 hy with rfl | hy
    · exact hplace.formed
    · obtain rfl := List.mem_singleton.1 hy
      exact hx
  cases h with
  | @compound op x hop hx =>
      refine .simple rfl rfl fun i => ?_
      have hsides : counter i ∉ collect varName? [.ofArgs .assignModify [place, x]] :=
        hg.not_mem_ofArgs ?_ i
      · rw [Node.variables_ofArgs] at hsides
        rw [Node.assignModify, Node.collect_node]
        exact hsides
      · intro y hy
        rcases List.mem_cons.1 hy with rfl | hy
        · exact hplace.formed
        · obtain rfl := List.mem_singleton.1 hy
          exact hx.formed hg.castable trivial
  | value _ hx => exact hassign _ (hx.formed hg.castable trivial)
  | constant hx => exact hassign _ hx.constant.formed
  | nothing _ => exact .nil

/-- A call paces its loops: it has none. -/
theorem Generator.Pacing.call (hg : g.Pacing) (h : g.env.Formed n)
    (hop : n.op = .call ∨ n.op = .methodCall) :
    Paces g.config.maxLoopIterations g.nextCounter g.nextCounter [n] := by
  have hholds : n.op.holdsStmts = false := by
    rcases hop with hop | hop <;> rw [hop] <;> rfl
  have hloop : n.op.isLoop = false := by
    rcases hop with hop | hop <;> rw [hop] <;> rfl
  exact .simple (Node.bodies_of_op hholds) hloop (hg.not_mem h)

/-- A return paces its loops: it has none. -/
theorem returns_paced (hg : g.Pacing) (h : Returns g.env g.budget g.currentResult n) :
    Paces g.config.maxLoopIterations g.nextCounter g.nextCounter [n] := by
  cases h with
  | void _ => exact .simple rfl rfl fun i => nofun
  | value _ hx =>
      refine .simple rfl rfl (hg.not_mem_ofArgs (List.forall_mem_singleton.2 ?_))
      exact hx.formed hg.castable trivial

theorem toInt_limit {limit max : Nat} (hhigh : limit ≤ max) (hmax : max < Nat.pow 2 63) :
    (Int64.ofNat limit).toInt = limit :=
  Int64.toInt_ofNat_of_lt (Nat.lt_of_le_of_lt hhigh hmax)

/-- The bound of a loop that tests last is one less. -/
theorem toInt_limit_sub_one {limit max : Nat} (hlow : 1 ≤ limit) (hhigh : limit ≤ max)
    (hmax : max < Nat.pow 2 63) : (Int64.ofNat limit - 1).toInt + 1 = limit := by
  have hsub : Int64.ofNat limit - 1 = Int64.ofNat (limit - 1) := (Int64.ofNat_sub limit 1 hlow).symm
  have hle : limit - 1 ≤ max := Nat.le_trans (Nat.sub_le limit 1) hhigh
  rw [hsub, Int64.toInt_ofNat_of_lt (Nat.lt_of_le_of_lt hle hmax)]
  omega

section Nested

variable {one : Effect} (hadv : one.Advancing) (hone : one.Paced)

include hadv hone

/-- Two branches pace their loops. -/
theorem ifElse_paced {g₁ g' : Generator Unit} {cond : Node} {body other : List Node}
    (hg : g.Pacing) (hcond : g.env.Formed cond) (h : Blocks one g body g₁)
    (ho : Blocks one g₁ other g') :
    Paces g.config.maxLoopIterations g.nextCounter g'.nextCounter
      [.ifElse cond (.block body) (.block other)] := by
  -- The second block is built after the first, so its counters are later ones.
  have hkeep := blocks_keeps hadv h
  have hkeep' := blocks_keeps hadv ho
  have hother := (blocks_paced hadv hone (hg.advance (hkeep.advances hg.isOpen)) ho).block
  rw [hkeep.sameFunction.config] at hother
  have hboth := (blocks_paced hadv hone hg h).block.append hother hkeep.counters hkeep'.counters
  refine hboth.around rfl (fun i => ?_) fun b hb l hl => ?_
  · rw [Node.ifElse, Node.variables_ofArgs, Node.collect_cons, List.count_append,
      List.count_eq_zero.2 (hg.not_mem hcond i), Nat.zero_add]
    rfl
  · rcases List.mem_cons.1 hb with rfl | hb
    · exact Paces.lists_of_mem List.mem_cons_self rfl hl
    · obtain rfl := List.mem_singleton.1 hb
      exact Paces.lists_of_mem (.tail _ List.mem_cons_self) rfl hl

/-- The cases and the default of a switch pace their loops. -/
theorem switch_paced {g₁ g' : Generator Unit} {t : Ty} {tag : Node} {k : Nat}
    {cases default : List Node} (hg : g.Pacing) (htag : g.env.Formed tag)
    (hc : Cases one t k [] g cases g₁) (hd : Defaults one g₁ default g') :
    Paces g.config.maxLoopIterations g.nextCounter g'.nextCounter
      [.ofArgs .switch (tag :: cases ++ default)] := by
  -- The default is built after the cases, so its counters are later ones as well.
  have hkeep := cases_keeps hadv hc
  have hkeep' := defaults_keeps hadv hd
  obtain ⟨hcases, hloop⟩ := cases_paced hadv hone hg hc
  obtain ⟨hdefault, hloop'⟩ :=
    defaults_paced hadv hone (hg.advance (hkeep.advances hg.isOpen)) hd
  rw [hkeep.sameFunction.config] at hdefault
  have hall := hcases.append hdefault hkeep.counters hkeep'.counters
  refine hall.around rfl (fun i => ?_) fun b hb l hl => ?_
  · rw [List.cons_append, Node.variables_ofArgs, Node.collect_cons, List.count_append,
      List.count_eq_zero.2 (hg.not_mem htag i), Nat.zero_add]
  · obtain ⟨c, hmem, rfl⟩ := List.mem_map.1 hb
    refine Paces.lists_of_mem hmem ?_ hl
    rcases List.mem_append.1 hmem with hmem | hmem
    · exact hloop c hmem
    · exact hloop' c hmem

end Nested

/-- A statement paces its loops if what is nested in it does. -/
theorem emits_paced {inner : Option Effect}
    (hinner : ∀ one, inner = some one → one.Advancing ∧ one.Paced) : Effect.Paced (Emits inner) := by
  intro g ns g' hg h
  have hcast := hg.castable
  cases h with
  | declaration h => exact declares_paced hg h
  | assignment hplace h => exact assigns_paced hg hplace h
  | dump h => exact hg.call (h.formed hcast) (Or.inl h.call_op)
  | echo h =>
      refine .simple rfl rfl (hg.not_mem_ofArgs fun x hx => ?_)
      rcases List.mem_cons.1 hx with rfl | hx
      · exact h.formed hcast trivial
      · obtain rfl := List.mem_singleton.1 hx
        exact .lit _
  | voidCall hf _ h => exact hg.call (h.formed hcast (hcast _ hf)) h.call_op
  | block hsome h =>
      obtain ⟨hadv, hone⟩ := hinner _ hsome
      exact (blocks_paced hadv hone hg h).block
  | ifThen hsome hcond h =>
      obtain ⟨hadv, hone⟩ := hinner _ hsome
      refine (blocks_paced hadv hone hg h).block.around rfl (fun i => ?_) fun _ hb _ hl =>
        Paces.lists_of_eq hb hl
      rw [Node.ifThen, Node.variables_ofArgs, Node.collect_cons, List.count_append,
        List.count_eq_zero.2 (hg.not_mem (hcond.formed hcast trivial) i), Nat.zero_add]
  | ifElse hsome hcond h ho =>
      obtain ⟨hadv, hone⟩ := hinner _ hsome
      exact ifElse_paced hadv hone hg (hcond.formed hcast trivial) h ho
  | @whileLoop one _ _ limit body hsome hlow hhigh h =>
      obtain ⟨hadv, hone⟩ := hinner _ hsome
      refine loop_paced hadv hone hg h hlow hhigh rfl (fun i => ?_) fun hbody => ?_
      -- Outside its block a loop has its own counter once, in the condition.
      · have hvars : collect varName? [Node.ofArgs .whileLoop [.counterBelow g.counterName
            (.ofNat limit), .block body]] = counter g.nextCounter :: collect varName? body := by
          rw [Node.variables_ofArgs, Node.collect_cons, Node.block, Node.variables_ofArgs]
          rfl
        rw [hvars, ← List.singleton_append, List.count_append, Paces.count_counter]
      · exact .whileLoop (toInt_limit hhigh hg.bounded) (by rwa [Node.block, Node.variables_ofArgs])
  | @doWhile one _ _ limit body hsome hlow hhigh h =>
      obtain ⟨hadv, hone⟩ := hinner _ hsome
      refine loop_paced hadv hone hg h hlow hhigh rfl (fun i => ?_) fun hbody => ?_
      · have hvars : collect varName? [Node.ofArgs .doWhile [.block body, .counterBelow g.counterName
            (.ofNat limit - 1)]] = collect varName? body ++ [counter g.nextCounter] := by
          rw [Node.variables_ofArgs, Node.collect_cons, Node.block, Node.variables_ofArgs]
          rfl
        rw [hvars, List.count_append, Paces.count_counter, Nat.add_comm]
      · exact .doWhile (toInt_limit_sub_one hlow hhigh hg.bounded)
          (by rwa [Node.block, Node.variables_ofArgs])
  | switch hsome _ _ htag _ _ hc hd =>
      obtain ⟨hadv, hone⟩ := hinner _ hsome
      exact switch_paced hadv hone hg (htag.formed hcast trivial) hc hd
  | breakJump _ | continueJump _ => exact .simple rfl rfl fun i => nofun
  | returnJump _ h => exact returns_paced hg h

/-- Every statement paces its loops, whatever its room. -/
theorem statement_paced : ∀ room, Effect.Paced (Statement room)
  | 0 => emits_paced (by simp)
  | room + 1 => by
      apply emits_paced
      intro one hsome
      cases hsome
      exact ⟨statement_advances room, statement_paced room⟩

/-- A function body paces its loops. -/
theorem body_paced : Effect.Paced Body := by
  intro g ns g'' hg h
  have hstmts : ∀ {k m : Nat} {g' g'' : Generator Unit} {decls stmts : List Node},
      Repeats Declares k g decls g' → Repeats (Statement g'.room) m g' stmts g'' →
      Paces g.config.maxLoopIterations g.nextCounter g''.nextCounter (decls ++ stmts) ∧
        Advances g g'' := by
    intro k m g' g'' decls stmts hd hs
    have hadvance := repeats_advances declares_advances hg.isOpen hd
    have hadvance' := repeats_advances (statement_advances _) hadvance.isOpen hs
    have hdecls := repeats_paced declares_advances declares_paced hg hd
    have hrest := repeats_paced (statement_advances _) (statement_paced _) (hg.advance hadvance) hs
    rw [hadvance.sameFunction.config] at hrest
    exact ⟨hdecls.append hrest hadvance.counters hadvance'.counters, hadvance.trans hadvance'⟩
  cases h with
  | void hd hs _ => exact (hstmts hd hs).1
  | value hd hs _ hlast =>
      obtain ⟨hpaces, hadvance⟩ := hstmts hd hs
      have hreturn := returns_paced (hg.advance hadvance) hlast
      rw [hadvance.sameFunction.config] at hreturn
      exact hpaces.append hreturn hadvance.counters (Nat.le_refl _)

end TypedPhp
