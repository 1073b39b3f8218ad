import Mathlib.Data.List.Perm.Basic
import TypedPhp.Proofs.Syntax.Formed

set_option autoImplicit false

/-!
# All nodes of a statement list

Every node of a statement list is a statement at a site, or stands in an expression that such a
statement evaluates, or is the variable that it assigns. A condition on these three therefore holds
of all nodes of the list (`Sited.every`).
-/

namespace TypedPhp

/-- The operators of loops. -/
def Op.isLoop : Op → Bool
  | .whileLoop | .doWhile => true
  | _ => false

namespace Node

theorem inductionOn {motive : Node → Prop}
    (node : ∀ op args payload type, (∀ x ∈ args, motive x) → motive (mk op args payload type)) :
    ∀ n, motive n
  | mk op args payload type => node op args payload type fun x _ => inductionOn node x

theorem self_mem_subterms (n : Node) : n ∈ n.subterms := by
  obtain ⟨op, args, payload, type⟩ := n
  rw [subterms]
  exact List.mem_cons_self

theorem mem_subterms_of_args {n x m : Node} (hx : x ∈ n.args) (hm : m ∈ x.subterms) :
    m ∈ n.subterms := by
  obtain ⟨op, args, payload, type⟩ := n
  rw [subterms]
  exact List.mem_cons_of_mem _ (mem_subtermsList.2 ⟨x, hx, hm⟩)

/-- What stands in a node of a tree stands in the tree. -/
theorem mem_subterms_trans {n x m : Node} (hx : x ∈ n.subterms) (hm : m ∈ x.subterms) :
    m ∈ n.subterms := by
  induction n using inductionOn with
  | node op args payload type ih =>
      rw [subterms] at hx
      rcases List.mem_cons.1 hx with rfl | hx
      · exact hm
      · obtain ⟨y, hy, hx⟩ := mem_subtermsList.1 hx
        exact mem_subterms_of_args hy (ih y hy hx)

/-- The statements of the lists inside a statement are children of it. -/
theorem mem_args_of_mem_bodies {n s : Node} {body : List Node} (hbody : body ∈ n.bodies)
    (hs : s ∈ body) : s ∈ n.args := by
  -- The cases are the equations of `bodies`, in order.
  fun_cases bodies n with
  | case1 stmts | case8 stmts =>
      obtain rfl := List.mem_singleton.1 hbody
      exact hs
  | case2 cond block | case4 cond block =>
      obtain rfl := List.mem_singleton.1 hbody
      exact List.mem_cons_of_mem cond hs
  | case3 cond block other =>
      rcases List.mem_cons.1 hbody with rfl | hbody
      · obtain rfl := List.mem_singleton.1 hs
        exact List.mem_cons_of_mem cond List.mem_cons_self
      · obtain rfl := List.mem_singleton.1 hbody
        exact List.mem_cons_of_mem cond (List.mem_cons_of_mem block hs)
  | case5 block cond =>
      obtain rfl := List.mem_singleton.1 hbody
      obtain rfl := List.mem_singleton.1 hs
      exact List.mem_cons_self
  | case6 tag cases =>
      obtain ⟨c, hc, rfl⟩ := List.mem_map.1 hbody
      obtain rfl := List.mem_singleton.1 hs
      exact List.mem_cons_of_mem tag hc
  | case7 label stmts =>
      obtain rfl := List.mem_singleton.1 hbody
      exact List.mem_cons_of_mem label hs
  | case9 =>
      rw [bodies] at hbody
      · cases hbody
      all_goals assumption

/-! ## What is read off the nodes -/

/-- What a function reads off the nodes of some trees, in the order of the nodes. -/
def collect {α : Type} (f : Node → Option α) (ns : List Node) : List α :=
  (subtermsList ns).filterMap f

section Collect

variable {α : Type} (f : Node → Option α)

/-- What is read off a node and off its children. -/
theorem collect_node (op : Op) (args : List Node) (payload : Option Payload) (type : Option Ty) :
    collect f [mk op args payload type] =
      (f (mk op args payload type)).toList ++ collect f args := by
  rw [collect, subtermsList, subterms, subtermsList, List.append_nil, List.filterMap_cons, collect]
  cases f (mk op args payload type) <;> rfl

/-- What is read off two lists of trees. -/
theorem collect_append (ns ms : List Node) :
    collect f (ns ++ ms) = collect f ns ++ collect f ms := by
  have hlist : subtermsList (ns ++ ms) = subtermsList ns ++ subtermsList ms := by
    induction ns with
    | nil => rfl
    | cons n ns ih => rw [List.cons_append, subtermsList, subtermsList, ih, List.append_assoc]
  rw [collect, hlist, List.filterMap_append, collect, collect]

/-- What is read off the trees of several parts. -/
theorem collect_flatMap {β : Type} (xs : List β) (g : β → List Node) :
    collect f (xs.flatMap g) = xs.flatMap fun x => collect f (g x) := by
  induction xs with
  | nil => rfl
  | cons x xs ih => rw [List.flatMap_cons, List.flatMap_cons, collect_append, ih]

theorem collect_cons (n : Node) (ns : List Node) :
    collect f (n :: ns) = collect f [n] ++ collect f ns :=
  collect_append f [n] ns

variable {f}

/-- What is read off some trees is read off a node of one of them. -/
theorem mem_collect {ns : List Node} {x : α} :
    x ∈ collect f ns ↔ ∃ n ∈ ns, ∃ m ∈ n.subterms, f m = some x := by
  rw [collect, List.mem_filterMap]
  constructor
  · rintro ⟨m, hm, hx⟩
    obtain ⟨n, hn, hm⟩ := mem_subtermsList.1 hm
    exact ⟨n, hn, m, hm, hx⟩
  · rintro ⟨n, hn, m, hm, hx⟩
    exact ⟨m, mem_subtermsList.2 ⟨n, hn, hm⟩, hx⟩

theorem collect_subset {ns ms : List Node} (h : ∀ n ∈ ns, n ∈ ms) : collect f ns ⊆ collect f ms := by
  intro x hx
  obtain ⟨n, hn, hrest⟩ := mem_collect.1 hx
  exact mem_collect.2 ⟨n, h n hn, hrest⟩

/-- What is read off children of a node is read off the node. -/
theorem collect_of_args {ns : List Node} {n : Node} (h : ∀ x ∈ ns, x ∈ n.args) :
    collect f ns ⊆ collect f [n] := by
  refine List.Subset.trans (collect_subset h) ?_
  obtain ⟨op, args, payload, type⟩ := n
  rw [collect_node]
  exact List.subset_append_right _ _

theorem collect_child {n x : Node} (h : x ∈ n.args) : collect f [x] ⊆ collect f [n] :=
  collect_of_args (List.forall_mem_singleton.2 h)

/-- What is read off a node of some trees is read off the trees. -/
theorem collect_subterm {ns : List Node} {x : Node} (h : x ∈ subtermsList ns) :
    collect f [x] ⊆ collect f ns := by
  intro y hy
  obtain ⟨n, hn, m, hm, hread⟩ := mem_collect.1 hy
  obtain rfl := List.mem_singleton.1 hn
  obtain ⟨z, hz, hx⟩ := mem_subtermsList.1 h
  exact mem_collect.2 ⟨z, hz, m, mem_subterms_trans hx hm, hread⟩

/-- What is read off the same trees in another order. -/
theorem collect_perm {ns ms : List Node} (h : ns.Perm ms) : (collect f ns).Perm (collect f ms) := by
  have hflat : ∀ ns : List Node, subtermsList ns = ns.flatMap subterms := by
    intro ns
    induction ns with
    | nil => rfl
    | cons n ns ih => rw [subtermsList, List.flatMap_cons, ih]
  rw [collect, collect, hflat, hflat]
  exact (h.flatMap_right _).filterMap f

end Collect

/-! ## Statement lists -/

/-- The statement lists of a body: itself, and the lists inside its statements. -/
inductive Lists : List Node → List Node → Prop where
  | self (ns : List Node) : Lists ns ns
  | inner {ns body l : List Node} {s : Node} : s ∈ ns → body ∈ s.bodies → Lists body l → Lists ns l

theorem Lists.tail {n s : Node} {ns l : List Node} (h : Lists ns l) (hs : s ∈ l) :
    ∃ l', Lists (n :: ns) l' ∧ s ∈ l' := by
  cases h with
  | self => exact ⟨n :: ns, .self _, List.mem_cons_of_mem n hs⟩
  | inner hm hbody hl => exact ⟨l, .inner (List.mem_cons_of_mem n hm) hbody hl, hs⟩

end Node

/-- The statement at a site stands in a list of the body. -/
theorem Site.listed {vars vars' : List ScopeVar} {ns : List Node} {s : Node}
    (h : Site vars ns vars' s) : ∃ l, Node.Lists ns l ∧ s ∈ l := by
  induction h with
  | head vars n ns => exact ⟨_, .self _, List.mem_cons_self⟩
  | inner hbody _ ih =>
      obtain ⟨l, hl, hs⟩ := ih
      exact ⟨l, .inner List.mem_cons_self hbody hl, hs⟩
  | tail _ ih =>
      obtain ⟨l, hl, hs⟩ := ih
      exact hl.tail hs

variable {P : List ScopeVar → Node → Prop} {R : Node → Prop}

/-- Induction over a statement list: what holds of the statement at a site as soon as it holds
of those in the lists inside it, holds of every statement of the list. -/
theorem Sited.induction
    (hstep : ∀ vars s, P vars s → (∀ body ∈ s.bodies, ∀ x ∈ body, R x) → R s)
    {vars : List ScopeVar} {ns : List Node} (h : Sited P vars ns) : ∀ n ∈ ns, R n := by
  -- The statements of one list, given that the condition holds in each of them wherever it stands.
  have hlist : ∀ ns : List Node,
      (∀ n ∈ ns, ∀ vars rest, Sited P vars (n :: rest) → R n) →
      ∀ vars, Sited P vars ns → ∀ n ∈ ns, R n := by
    intro ns
    induction ns with
    | nil => exact fun _ _ _ => nofun
    | cons m ns ih =>
        intro hone vars hsited n hn
        rcases List.mem_cons.1 hn with rfl | hn
        · exact hone n List.mem_cons_self vars ns hsited
        · refine ih (fun n hn => hone n (List.mem_cons_of_mem m hn)) (introduce vars m) ?_ n hn
          exact fun vars' s hs => hsited vars' s (.tail hs)
  have hone : ∀ n, ∀ vars rest, Sited P vars (n :: rest) → R n := by
    intro n
    induction n using Node.inductionOn with
    | node op args payload type ih =>
        intro vars rest hsited
        refine hstep vars _ (hsited vars _ (.head vars _ rest)) fun body hbody => ?_
        refine hlist body (fun y hy => ih y (Node.mem_args_of_mem_bodies hbody hy)) vars ?_
        exact fun vars' s hs => hsited vars' s (.inner hbody hs)
  exact hlist ns (fun n _ => hone n) vars h

/-- A condition on all nodes of a statement list holds if it holds of every statement at its
site, of the expressions that it evaluates, and of the variable that it assigns. -/
theorem Sited.every
    (hP : ∀ vars s, P vars s →
      R s ∧ (∀ x ∈ s.uses, x.Every R) ∧
        (s.op = .assign → ∀ x ∈ s.args, x.op = .var → x.Every R))
    {vars : List ScopeVar} {ns : List Node} (h : Sited P vars ns) : ∀ n ∈ ns, n.Every R := by
  refine h.induction (R := (·.Every R)) fun vars s hs hbodies => ?_
  obtain ⟨hroot, huses, hvar⟩ := hP vars s hs
  obtain ⟨op, args, payload, type⟩ := s
  refine .node hroot fun x hx => ?_
  have hcovered := Node.child_covered (n := .mk op args payload type) hx
  rcases hcovered with hself | huse | ⟨body, hbody, hmem⟩ | hassign
  · exact (huses _ hself).child hx
  · exact huses x huse
  · exact hbodies body hbody x hmem
  · exact hvar hassign.1 x hx hassign.2

end TypedPhp
