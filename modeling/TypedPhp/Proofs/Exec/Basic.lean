import Mathlib.Logic.Function.Basic
import TypedPhp.Proofs.Syntax.Subterms

set_option autoImplicit false

/-!
# Runs of statements

What the statements of a function can do to the integers that its variables hold. Whatever is not
known before the program runs is left open: an expression may change every variable that stands in
it, and a condition may hold or not. Known are the assignment of an integer, and the test of a
variable that is stepped against an integer, which together make up the loops that count. A run may
leave a loop or a function early, so `Exec` has the ways in which a statement can end.

`Starts` says that a loop starts its body for the `k`-th time, and `Comes` that a run of a body
comes to a statement. Both ask only for what stands before to have come to an end, so a statement
that never ends, or ends the program, is covered as well.
-/

namespace TypedPhp

namespace Node

/-- The name of a node that is a variable. -/
def varName? (n : Node) : Option String := if n.op = .var then n.ident? else none

/-- The variables of a node without payload are those of its children. -/
theorem variables_ofArgs (op : Op) (args : List Node) :
    collect varName? [ofArgs op args] = collect varName? args := by
  have hnone : varName? (ofArgs op args) = none := ite_self none
  rw [ofArgs, collect_node, ← ofArgs, hnone]
  rfl

end Node

open Node (collect varName?)

/-! ## Stores -/

/-- The integers that the variables of a function hold. -/
abbrev Store := String → Int

/-- Only the given variables are changed. -/
def Store.Changes (names : List String) (σ σ' : Store) : Prop := ∀ x, x ∉ names → σ' x = σ x

theorem Store.Changes.mono {names more : List String} {σ σ' : Store} (h : Changes names σ σ')
    (hle : names ⊆ more) : Changes more σ σ' :=
  fun x hx => h x fun hmem => hx (hle hmem)

theorem Store.Changes.trans {names : List String} {σ σ₁ σ' : Store} (h : Changes names σ σ₁)
    (h' : Changes names σ₁ σ') : Changes names σ σ' :=
  fun x hx => (h' x hx).trans (h x hx)

/-- How a statement ends. -/
inductive Outcome where
  | normal
  | breaks
  | continues
  | returns
deriving DecidableEq, Repr

namespace Outcome

/-- After its body a loop goes on to its condition. -/
def goesOn : Outcome → Bool
  | normal | continues => true
  | breaks | returns => false

/-- How a loop or a switch ends that the statements inside it end. -/
def leaving : Outcome → Outcome
  | returns => returns
  | normal | breaks | continues => normal

end Outcome

/-! ## Runs -/

/-- The test of a variable that is stepped against an integer. -/
def Node.stepsBelow (name : String) (t : Ty) (bound : Int64) : Node :=
  .binary .less (.unary .postInc (.var name t)) (.intLit bound)

/-- A condition holds or not. -/
inductive Test : Node → Store → Bool → Store → Prop where
  | steps (name : String) (t : Ty) (bound : Int64) (σ : Store) :
      Test (.stepsBelow name t bound) σ (decide (σ name < bound.toInt))
        (Function.update σ name (σ name + 1))
  | other {cond : Node} {b : Bool} {σ σ' : Store} :
      (∀ name t bound, cond ≠ .stepsBelow name t bound) →
      σ.Changes (collect varName? [cond]) σ' → Test cond σ b σ'

/-- What can be run: a statement, a list of statements, or a loop up to where it has tested its
condition with success and has come to the end of its body a number of times. -/
inductive Code where
  | stmt (n : Node)
  | list (ns : List Node)
  | rounds (cond body : Node) (n : Nat)

/-- The runs of a part of a function, from a store to a way of ending and the store then. -/
inductive Exec : Code → Store → Outcome → Store → Prop where
  -- Statements that hold no other ones.
  | simple {n : Node} {σ σ' : Store} : n.bodies = [] → n.op.isJump = false →
      (∀ name t v, n ≠ .assign (.var name t) (.intLit v)) → σ.Changes (collect varName? [n]) σ' →
      Exec (.stmt n) σ .normal σ'
  | setInt (name : String) (t : Ty) (v : Int64) (σ : Store) :
      Exec (.stmt (.assign (.var name t) (.intLit v))) σ .normal (Function.update σ name v.toInt)
  | breakJump (σ : Store) : Exec (.stmt (.ofArgs .breakJump [])) σ .breaks σ
  | continueJump (σ : Store) : Exec (.stmt (.ofArgs .continueJump [])) σ .continues σ
  | returnJump {n : Node} {σ σ' : Store} : n.op = .returnVoid ∨ n.op = .returnValue →
      σ.Changes (collect varName? [n]) σ' → Exec (.stmt n) σ .returns σ'
  -- Lists end early where one of their statements does.
  | nil (σ : Store) : Exec (.list []) σ .normal σ
  | cons {n : Node} {ns : List Node} {o : Outcome} {σ σ₁ σ' : Store} :
      Exec (.stmt n) σ .normal σ₁ → Exec (.list ns) σ₁ o σ' → Exec (.list (n :: ns)) σ o σ'
  | left {n : Node} {ns : List Node} {o : Outcome} {σ σ' : Store} : o ≠ .normal →
      Exec (.stmt n) σ o σ' → Exec (.list (n :: ns)) σ o σ'
  -- Branches.
  | block {ns : List Node} {o : Outcome} {σ σ' : Store} : Exec (.list ns) σ o σ' →
      Exec (.stmt (.block ns)) σ o σ'
  | ifTrue {cond body : Node} {o : Outcome} {σ σ₁ σ' : Store} : Test cond σ true σ₁ →
      Exec (.stmt body) σ₁ o σ' → Exec (.stmt (.ifThen cond body)) σ o σ'
  | ifFalse {cond body : Node} {σ σ' : Store} : Test cond σ false σ' →
      Exec (.stmt (.ifThen cond body)) σ .normal σ'
  | elseTrue {cond body other : Node} {o : Outcome} {σ σ₁ σ' : Store} : Test cond σ true σ₁ →
      Exec (.stmt body) σ₁ o σ' → Exec (.stmt (.ifElse cond body other)) σ o σ'
  | elseFalse {cond body other : Node} {o : Outcome} {σ σ₁ σ' : Store} : Test cond σ false σ₁ →
      Exec (.stmt other) σ₁ o σ' → Exec (.stmt (.ifElse cond body other)) σ o σ'
  -- A switch runs its cases from some one on, or none of them.
  | switch {tag : Node} {skipped cases : List Node} {o : Outcome} {σ σ₁ σ' : Store} :
      σ.Changes (collect varName? [tag]) σ₁ → Exec (.list cases) σ₁ o σ' →
      Exec (.stmt (.ofArgs .switch (tag :: (skipped ++ cases)))) σ o.leaving σ'
  | case {label : Node} {ns : List Node} {o : Outcome} {σ σ' : Store} : Exec (.list ns) σ o σ' →
      Exec (.stmt (.ofArgs .case (label :: ns))) σ o σ'
  | defaultCase {ns : List Node} {o : Outcome} {σ σ' : Store} : Exec (.list ns) σ o σ' →
      Exec (.stmt (.ofArgs .defaultCase ns)) σ o σ'
  -- Loops. After its first round a loop that tests last is one that tests first.
  | noRounds (cond body : Node) (σ : Store) : Exec (.rounds cond body 0) σ .normal σ
  | round {cond body : Node} {n : Nat} {o : Outcome} {σ σ₁ σ₂ σ' : Store} :
      Exec (.rounds cond body n) σ .normal σ₁ → Test cond σ₁ true σ₂ →
      Exec (.stmt body) σ₂ o σ' → o.goesOn = true → Exec (.rounds cond body (n + 1)) σ .normal σ'
  | whileEnds {cond body : Node} {n : Nat} {σ σ₁ σ' : Store} :
      Exec (.rounds cond body n) σ .normal σ₁ → Test cond σ₁ false σ' →
      Exec (.stmt (.ofArgs .whileLoop [cond, body])) σ .normal σ'
  | whileLeft {cond body : Node} {n : Nat} {o : Outcome} {σ σ₁ σ₂ σ' : Store} :
      Exec (.rounds cond body n) σ .normal σ₁ → Test cond σ₁ true σ₂ →
      Exec (.stmt body) σ₂ o σ' → o.goesOn = false →
      Exec (.stmt (.ofArgs .whileLoop [cond, body])) σ o.leaving σ'
  | doLeft {cond body : Node} {o : Outcome} {σ σ' : Store} : Exec (.stmt body) σ o σ' →
      o.goesOn = false → Exec (.stmt (.ofArgs .doWhile [body, cond])) σ o.leaving σ'
  | doGoesOn {cond body : Node} {o o' : Outcome} {σ σ₁ σ' : Store} : Exec (.stmt body) σ o σ₁ →
      o.goesOn = true → Exec (.stmt (.ofArgs .whileLoop [cond, body])) σ₁ o' σ' →
      Exec (.stmt (.ofArgs .doWhile [body, cond])) σ o' σ'

/-- A loop starts its body for the `k`-th time, from the store in which it is entered. -/
inductive Starts : Node → (k : Nat) → Store → Store → Prop where
  | whileLoop {cond body : Node} {n : Nat} {σ σ₁ σ' : Store} :
      Exec (.rounds cond body n) σ .normal σ₁ → Test cond σ₁ true σ' →
      Starts (.ofArgs .whileLoop [cond, body]) (n + 1) σ σ'
  | doFirst (cond body : Node) (σ : Store) : Starts (.ofArgs .doWhile [body, cond]) 1 σ σ
  | doAgain {cond body : Node} {n : Nat} {o : Outcome} {σ σ₁ σ₂ σ' : Store} :
      Exec (.stmt body) σ o σ₁ → o.goesOn = true → Exec (.rounds cond body n) σ₁ .normal σ₂ →
      Test cond σ₂ true σ' → Starts (.ofArgs .doWhile [body, cond]) (n + 2) σ σ'

/-- A run of a statement begins a list inside it. -/
inductive Opens : Node → Store → List Node → Store → Prop where
  | block (ns : List Node) (σ : Store) : Opens (.block ns) σ ns σ
  | ifTrue {cond body : Node} {σ σ' : Store} : Test cond σ true σ' →
      Opens (.ifThen cond body) σ [body] σ'
  | elseTrue {cond body other : Node} {σ σ' : Store} : Test cond σ true σ' →
      Opens (.ifElse cond body other) σ [body] σ'
  | elseFalse {cond body other : Node} {σ σ' : Store} : Test cond σ false σ' →
      Opens (.ifElse cond body other) σ [other] σ'
  | switch {tag c : Node} {skipped before rest : List Node} {σ σ₁ σ' : Store} :
      σ.Changes (collect varName? [tag]) σ₁ → Exec (.list before) σ₁ .normal σ' →
      Opens (.ofArgs .switch (tag :: (skipped ++ before ++ c :: rest))) σ [c] σ'
  | case (label : Node) (ns : List Node) (σ : Store) : Opens (.ofArgs .case (label :: ns)) σ ns σ
  | defaultCase (ns : List Node) (σ : Store) : Opens (.ofArgs .defaultCase ns) σ ns σ
  | loop {m : Node} {body : List Node} {k : Nat} {σ σ' : Store} : body ∈ m.bodies →
      Starts m k σ σ' → Opens m σ body σ'

/-- A run of a statement list comes to a statement in it, or inside one of its statements. -/
inductive Comes : List Node → Store → Node → Store → Prop where
  | here (n : Node) (ns : List Node) (σ : Store) : Comes (n :: ns) σ n σ
  | inside {n m : Node} {ns body : List Node} {σ σ₁ σ' : Store} : Opens n σ body σ₁ →
      Comes body σ₁ m σ' → Comes (n :: ns) σ m σ'
  | next {n m : Node} {ns : List Node} {σ σ₁ σ' : Store} : Exec (.stmt n) σ .normal σ₁ →
      Comes ns σ₁ m σ' → Comes (n :: ns) σ m σ'

/-- What a statement opens is one of the lists inside it. -/
theorem Opens.mem_bodies {n : Node} {body : List Node} {σ σ' : Store} (h : Opens n σ body σ') :
    body ∈ n.bodies := by
  cases h with
  | block | ifTrue _ | elseTrue _ | case | defaultCase => exact List.mem_cons_self
  | elseFalse _ => exact .tail _ List.mem_cons_self
  | switch _ _ =>
      refine List.mem_map_of_mem (f := fun c => [c]) ?_
      exact List.mem_append_right _ List.mem_cons_self
  | loop hbody _ => exact hbody

/-! ## What a run leaves unchanged -/

/-- The variables that stand in a part of a function. -/
def Code.variables : Code → List String
  | stmt n => collect varName? [n]
  | list ns => collect varName? ns
  | rounds cond body _ => collect varName? [cond] ++ collect varName? [body]

/-- A test changes only what stands in the condition. -/
theorem Test.changes {cond : Node} {b : Bool} {σ σ' : Store} (h : Test cond σ b σ') :
    σ.Changes (collect varName? [cond]) σ' := by
  cases h with
  | steps name t bound =>
      intro x hx
      apply Function.update_of_ne
      rintro rfl
      exact hx List.mem_cons_self
  | other _ h => exact h

/-- A run changes only variables that stand in what is run. -/
theorem Exec.changes {p : Code} {o : Outcome} {σ σ' : Store} (h : Exec p σ o σ') :
    σ.Changes p.variables σ' := by
  -- What a statement runs are children of it, so their variables stand in the statement.
  have hloop : ∀ cond body : Node, collect varName? [cond] ++ collect varName? [body] ⊆
      collect varName? [.ofArgs .whileLoop [cond, body]] := by
    intro cond body
    rw [Node.variables_ofArgs, ← Node.collect_append]
    exact List.Subset.refl _
  induction h with
  | simple _ _ _ h => exact h
  | setInt name t v σ =>
      intro x hx
      apply Function.update_of_ne
      rintro rfl
      exact hx List.mem_cons_self
  | breakJump σ | continueJump σ | nil σ | noRounds _ _ σ => exact fun _ _ => rfl
  | returnJump _ h => exact h
  | @cons n ns o σ σ₁ σ' _ _ ih ih' =>
      rw [Code.variables, Node.collect_cons]
      exact (ih.mono (List.subset_append_left _ _)).trans (ih'.mono (List.subset_append_right _ _))
  | @left n ns o σ σ' _ _ ih =>
      rw [Code.variables, Node.collect_cons]
      exact ih.mono (List.subset_append_left _ _)
  | block _ ih => exact ih.mono (Node.collect_of_args fun x hx => hx)
  | ifTrue htest _ ih | elseTrue htest _ ih =>
      exact (htest.changes.mono (Node.collect_child List.mem_cons_self)).trans
        (ih.mono (Node.collect_child (.tail _ List.mem_cons_self)))
  | ifFalse htest => exact htest.changes.mono (Node.collect_child List.mem_cons_self)
  | elseFalse htest _ ih =>
      exact (htest.changes.mono (Node.collect_child List.mem_cons_self)).trans
        (ih.mono (Node.collect_child (.tail _ (.tail _ List.mem_cons_self))))
  | switch htag _ ih =>
      refine (htag.mono (Node.collect_child List.mem_cons_self)).trans
        (ih.mono (Node.collect_of_args fun x hx => ?_))
      exact List.mem_cons_of_mem _ (List.mem_append_right _ hx)
  | case _ ih => exact ih.mono (Node.collect_of_args fun x hx => List.mem_cons_of_mem _ hx)
  | defaultCase _ ih => exact ih.mono (Node.collect_of_args fun x hx => hx)
  | round _ htest _ _ ih ihbody =>
      exact (ih.trans (htest.changes.mono (List.subset_append_left _ _))).trans
        (ihbody.mono (List.subset_append_right _ _))
  | whileEnds _ htest ih =>
      exact (ih.trans (htest.changes.mono (List.subset_append_left _ _))).mono (hloop _ _)
  | whileLeft _ htest _ _ ih ihbody =>
      exact ((ih.trans (htest.changes.mono (List.subset_append_left _ _))).trans
        (ihbody.mono (List.subset_append_right _ _))).mono (hloop _ _)
  | doLeft _ _ ih => exact ih.mono (Node.collect_child List.mem_cons_self)
  | @doGoesOn cond body o o' σ σ₁ σ' _ _ _ ih ih' =>
      have hsame : collect varName? [.ofArgs .whileLoop [cond, body]] ⊆
          collect varName? [.ofArgs .doWhile [body, cond]] := by
        rw [Node.variables_ofArgs, Node.variables_ofArgs]
        exact Node.collect_subset fun x hx => by simpa [or_comm] using hx
      exact (ih.mono (Node.collect_child List.mem_cons_self)).trans (ih'.mono hsame)

/-! ## Loops that count -/

/-- A loop that counts with a variable and runs its body at most `n` times if the variable is
zero at its start: no part of the body touches it. -/
inductive Node.Counts (name : String) (n : Nat) : Node → Prop where
  | whileLoop {t : Ty} {bound : Int64} {body : Node} : bound.toInt = n →
      name ∉ collect varName? [body] →
      Counts name n (.ofArgs .whileLoop [.stepsBelow name t bound, body])
  | doWhile {t : Ty} {bound : Int64} {body : Node} : bound.toInt + 1 = n →
      name ∉ collect varName? [body] →
      Counts name n (.ofArgs .doWhile [body, .stepsBelow name t bound])

section Counting

variable {name : String} {t : Ty} {bound : Int64} {body : Node} {σ σ' : Store}

/-- A test that succeeds finds the variable below the bound, and steps it. -/
theorem Test.steps_true (h : Test (.stepsBelow name t bound) σ true σ') :
    σ name < bound.toInt ∧ σ' name = σ name + 1 := by
  generalize hcond : Node.stepsBelow name t bound = cond at h
  generalize hb : true = b at h
  cases h with
  | steps name' t' bound' =>
      simp only [Node.stepsBelow, Node.binary, Node.unary, Node.var, Node.intLit, Node.lit,
        Node.ofArgs, Node.mk.injEq, List.cons.injEq, Option.some.injEq, Payload.ident.injEq,
        Payload.literal.injEq, Literal.int.injEq, and_true, true_and] at hcond
      obtain ⟨⟨rfl, rfl⟩, -, rfl, -⟩ := hcond
      exact ⟨of_decide_eq_true hb.symm, Function.update_self ..⟩
  | other hne _ => exact absurd hcond.symm (hne name t bound)

/-- Every round of a loop that counts steps its variable once. -/
theorem Exec.rounds_count (hbody : name ∉ collect varName? [body]) : ∀ {n : Nat} {σ' : Store},
    Exec (.rounds (.stepsBelow name t bound) body n) σ .normal σ' → σ' name = σ name + n
  | 0, _, h => by
      cases h
      simp
  | n + 1, _, h => by
      cases h with
      | round hrounds htest hrun _ =>
          have hcount := Exec.rounds_count hbody hrounds
          rw [hrun.changes name hbody, htest.steps_true.2, hcount]
          omega

/-- A loop that counts runs its body at most `n` times, if its variable is zero at the start. -/
theorem Starts.le_of_counts {n k : Nat} {m : Node} (hm : m.Counts name n) (hn : 1 ≤ n)
    (hσ : σ name = 0) (h : Starts m k σ σ') : k ≤ n := by
  cases hm with
  | whileLoop hbound hbody =>
      cases h with
      | whileLoop hrounds htest =>
          have hlt := htest.steps_true.1
          rw [Exec.rounds_count hbody hrounds] at hlt
          omega
  | doWhile hbound hbody =>
      cases h with
      | doFirst => exact hn
      | doAgain hrun _ hrounds htest =>
          have hlt := htest.steps_true.1
          rw [Exec.rounds_count hbody hrounds, hrun.changes name hbody] at hlt
          omega

end Counting

end TypedPhp
