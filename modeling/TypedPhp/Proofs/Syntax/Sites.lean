import Mathlib.Tactic.Common
import TypedPhp.Generate.Env

set_option autoImplicit false

/-!
# Sites of statements

A finished statement list is read from the start with an environment of variables: an assignment to
a new name introduces it for the rest of its list and for everything nested after it, and what a
nested list introduces is dropped at its end. `Site vars ns vars' s` says that this reading comes to
the statement `s` with the environment `vars'`. Nothing here knows how a tree was built.
-/

namespace TypedPhp

namespace Node

mutual

/-- The nodes of a tree, parents before their children. -/
def subterms : Node → List Node
  | mk op args payload type => mk op args payload type :: subtermsList args

/-- The nodes of several trees. -/
def subtermsList : List Node → List Node
  | [] => []
  | n :: ns => subterms n ++ subtermsList ns

end

/-- The statement lists directly inside a statement. -/
def bodies : Node → List (List Node)
  | mk .block stmts _ _ => [stmts]
  | mk .ifThen [_, body] _ _ => [[body]]
  | mk .ifElse [_, body, otherwise] _ _ => [[body], [otherwise]]
  | mk .whileLoop [_, body] _ _ => [[body]]
  | mk .doWhile [body, _] _ _ => [[body]]
  | mk .switch (_ :: cases) _ _ => cases.map fun c => [c]
  | mk .case (_ :: body) _ _ => [body]
  | mk .defaultCase body _ _ => [body]
  | _ => []

/-- The expressions that a statement evaluates itself. The left side of an assignment to a variable
is not one of them. -/
def uses : Node → List Node
  | mk .block _ _ _ | mk .defaultCase _ _ _ | mk .breakJump [] _ _ | mk .continueJump [] _ _
  | mk .returnVoid [] _ _ => []
  | mk .ifThen [cond, _] _ _ => [cond]
  | mk .ifElse [cond, _, _] _ _ => [cond]
  | mk .whileLoop [cond, _] _ _ => [cond]
  | mk .doWhile [_, cond] _ _ => [cond]
  | mk .switch (tag :: _) _ _ => [tag]
  | mk .case (label :: _) _ _ => [label]
  | mk .returnValue values _ _ => values
  | mk .echo values _ _ => values
  | mk .assign [mk .var _ _ _, rhs] _ _ => [rhs]
  | mk .assign sides _ _ => sides
  | mk .assignModify sides _ _ => sides
  | n => [n]

/-- Nothing of a statement is left out: it is evaluated as a whole, or every child of it is
evaluated, stands in a list inside it, or is the variable that it assigns. -/
theorem child_covered {n x : Node} (hx : x ∈ n.args) :
    n ∈ n.uses ∨ x ∈ n.uses ∨ (∃ body ∈ n.bodies, x ∈ body) ∨ (n.op = .assign ∧ x.op = .var) := by
  -- The cases are the equations of `uses`, in order.
  fun_cases uses n with
  | case1 stmts | case2 stmts =>
      exact Or.inr (Or.inr (Or.inl ⟨stmts, List.mem_singleton.2 rfl, hx⟩))
  | case3 | case4 | case5 => cases hx
  | case6 cond body | case8 cond body | case9 body cond =>
      simp only [args, List.mem_cons, List.not_mem_nil, or_false] at hx
      rcases hx with rfl | rfl <;> simp [bodies]
  | case7 cond body other =>
      simp only [args, List.mem_cons, List.not_mem_nil, or_false] at hx
      rcases hx with rfl | rfl | rfl <;> simp [bodies]
  | case10 tag cases =>
      rcases List.mem_cons.1 hx with rfl | hx
      · simp
      · exact Or.inr (Or.inr (Or.inl ⟨[x], List.mem_map_of_mem hx, List.mem_singleton.2 rfl⟩))
  | case11 label body =>
      rcases List.mem_cons.1 hx with rfl | hx
      · simp
      · exact Or.inr (Or.inr (Or.inl ⟨body, List.mem_singleton.2 rfl, hx⟩))
  | case14 =>
      simp only [args, List.mem_cons, List.not_mem_nil, or_false] at hx
      rcases hx with rfl | rfl <;> simp [Node.op]
  | case12 | case13 | case15 | case16 => exact Or.inr (Or.inl hx)
  | case17 => exact Or.inl (List.mem_singleton.2 rfl)

end Node

/-- The variable of a name in an environment. -/
def lookup? (vars : List ScopeVar) (name : String) : Option ScopeVar :=
  vars.find? (·.name == name)

/-- The environment after a statement: an assignment to a new name introduces it. -/
def introduce (vars : List ScopeVar) : Node → List ScopeVar
  | .mk .assign [.mk .var _ (some (.ident name)) (some t), _] _ _ =>
    if (lookup? vars name).isSome then vars else ⟨name, t⟩ :: vars
  | _ => vars

/-- The environment after several statements. -/
def introduceAll (vars : List ScopeVar) (ns : List Node) : List ScopeVar := ns.foldl introduce vars

/-- The reading of a statement list comes to a statement with an environment. -/
inductive Site : List ScopeVar → List Node → List ScopeVar → Node → Prop where
  | head (vars : List ScopeVar) (n : Node) (ns : List Node) : Site vars (n :: ns) vars n
  | inner {vars vars' : List ScopeVar} {n s : Node} {ns body : List Node} : body ∈ n.bodies →
      Site vars body vars' s → Site vars (n :: ns) vars' s
  | tail {vars vars' : List ScopeVar} {n s : Node} {ns : List Node} :
      Site (introduce vars n) ns vars' s → Site vars (n :: ns) vars' s

/-! ## Reading of lists -/

/-- Every site of a statement list satisfies `P`. -/
def Sited (P : List ScopeVar → Node → Prop) (vars : List ScopeVar) (ns : List Node) : Prop :=
  ∀ vars' s, Site vars ns vars' s → P vars' s

namespace Sited

variable {P Q : List ScopeVar → Node → Prop} {vars : List ScopeVar} {n : Node}
  {ns ms : List Node}

theorem nil : Sited P vars [] := fun _ _ h => nomatch h

/-- The sites of a list are its first statement, those inside it, and those of the rest. -/
theorem cons (hhead : P vars n) (hinner : ∀ body ∈ n.bodies, Sited P vars body)
    (htail : Sited P (introduce vars n) ns) : Sited P vars (n :: ns) := by
  intro vars' s h
  cases h with
  | head => exact hhead
  | inner hbody h => exact hinner _ hbody vars' s h
  | tail h => exact htail vars' s h

theorem single (hhead : P vars n) (hinner : ∀ body ∈ n.bodies, Sited P vars body) :
    Sited P vars [n] :=
  cons hhead hinner nil

/-- The sites of two lists in a row. -/
theorem append : ∀ {vars : List ScopeVar} {ns : List Node}, Sited P vars ns →
    Sited P (introduceAll vars ns) ms → Sited P vars (ns ++ ms)
  | _, [], _, h' => h'
  -- The environment moves along with the list, so the recursion is on the first list.
  | vars, n :: ns, h, h' => by
      apply cons
      · exact h vars n (.head vars n ns)
      · intro body hbody vars' s hs
        exact h vars' s (.inner hbody hs)
      · apply append
        · intro vars' s hs
          exact h vars' s (.tail hs)
        · exact h'

theorem mono (h : Sited P vars ns) (hPQ : ∀ vars' s, P vars' s → Q vars' s) : Sited Q vars ns :=
  fun vars' s hs => hPQ vars' s (h vars' s hs)

end Sited

theorem introduceAll_append (vars : List ScopeVar) (ns ms : List Node) :
    introduceAll vars (ns ++ ms) = introduceAll (introduceAll vars ns) ms :=
  List.foldl_append

/-- What is no assignment introduces nothing. -/
theorem introduce_of_op {n : Node} (h : n.op ≠ .assign) (vars : List ScopeVar) :
    introduce vars n = vars := by
  unfold introduce
  split
  · exact absurd rfl h
  · rfl

/-- An assignment to a known name introduces nothing. -/
theorem introduce_known {vars : List ScopeVar} {v : ScopeVar} (h : v ∈ vars) (x : Node) :
    introduce vars (.assign (Env.varNode v) x) = vars := by
  have hsome : (lookup? vars v.name).isSome = true := by
    rw [lookup?, List.find?_isSome]
    exact ⟨v, h, by simp⟩
  simp [introduce, Node.assign, Node.ofArgs, Env.varNode, Node.var, hsome]

/-- An assignment to a new name introduces it. -/
theorem introduce_fresh {vars : List ScopeVar} {name : String} {t : Ty}
    (h : name ∉ vars.map (·.name)) (x : Node) :
    introduce vars (.assign (.var name t) x) = ⟨name, t⟩ :: vars := by
  have hnone : (lookup? vars name).isSome = false := by
    rw [← Bool.not_eq_true, lookup?, List.find?_isSome]
    rintro ⟨v, hv, hname⟩
    apply h
    rw [← eq_of_beq hname]
    exact List.mem_map_of_mem hv
  simp [introduce, Node.assign, Node.ofArgs, Node.var, hnone]

/-- In an environment of distinct names, a variable is found under its name. -/
theorem lookup?_of_mem : ∀ {vars : List ScopeVar} {v : ScopeVar},
    (vars.map (·.name)).Nodup → v ∈ vars → lookup? vars v.name = some v
  | [], _, _, h => nomatch h
  | w :: vars, v, hd, h => by
      rw [List.map_cons, List.nodup_cons] at hd
      rcases List.mem_cons.1 h with rfl | h
      · simp [lookup?]
      · have hne : w.name ≠ v.name := by
          intro heq
          apply hd.1
          rw [heq]
          exact List.mem_map_of_mem h
        rw [lookup?, List.find?_cons_of_neg (by simpa using hne)]
        exact lookup?_of_mem hd.2 h

end TypedPhp
