import TypedPhp.Proofs.Expr.Constant
import TypedPhp.Proofs.Runs.Building

set_option autoImplicit false

/-!
# Types that have constants

Before a constant is drawn, the type is asked whether its values can be written as constants. The
answer and the draw are two recursions over the type, and they agree (`Draw.constant_exact`): if the
answer is yes, a constant is drawn from every source, and if it is no, there are words on which the
draw fails. Such words lead to the part of the type that has no constants (`failingWords`): they
make arrays long, nothing null, and take the failing member of a union. On other words a draw for
such a type may return, and what it returns then is a constant of the type all the same.
-/

namespace TypedPhp

open Scripted (Stream)

/-! ## The nodes of a constant -/

/-- A node of a constant: a literal, a null, or an array literal of at most three elements that
carries the type of the array. -/
inductive Node.ConstantPart : Node → Prop where
  | literal (l : Literal) : ConstantPart (.lit l)
  | null (t : Ty) : ConstantPart (Node.null.withType (.nullable t))
  | array {elem : Ty} {elems : List Node} : elems.length ≤ 3 → (∀ x ∈ elems, ConstantOf elem x) →
      ConstantPart ((Node.ofArgs .arrayLit elems).withType (.array elem))

/-- A constant consists of such nodes only. -/
theorem ConstantOf.parts {t : Ty} {n : Node} (h : ConstantOf t n) : n.Every Node.ConstantPart := by
  induction h with
  | literal _ => exact .leaf (.literal _)
  | mixed _ => exact .leaf (.literal _)
  | enum _ => exact .leaf (.literal _)
  | array hlen helems ih => exact .node (.array hlen helems) ih
  | null t => exact .leaf (.null t)
  | inner _ ih => exact ih
  | left _ ih => exact ih
  | right _ ih => exact ih

/-! ## Words that lead to a failure -/

/-- The word of which every bit is set. -/
def greatestWord : UInt64 := 0xffffffffffffffff

/-- Words that lead a draw to a part of the type without constants, if there is one. -/
def failingWords : Ty → List UInt64
  | .array elem => greatestWord :: failingWords elem
  | .nullable inner => greatestWord :: failingWords inner
  | .union x y =>
    if x.isConstInitializable then greatestWord :: failingWords y else 0 :: failingWords x
  | _ => []

namespace Draw

/-- A chance is decided by the next word of a script. -/
theorem chance_scripted {p : Double} (hone : p.isOne = false) (hp : p.isProbability = true)
    {b : Bool} {w : UInt64} (hb : decide (w.toNat < p.scaledTo64) = b) (words : List UInt64)
    (state : UInt64) : (chance p : Draw Stream Bool) ⟨w :: words, state⟩ =
      .ok (b, ⟨words, state⟩) := by
  rw [chance, hone, hp, ← hb]
  rfl

theorem range_scripted (words : List UInt64) (state : UInt64) :
    (range 0 3 : Draw Stream Nat) ⟨greatestWord :: words, state⟩ = .ok (3, ⟨words, state⟩) := rfl

/-- For a type without constants the draw fails on the words that lead there, whatever follows
them. -/
theorem constant_fails (env : Env) (rest : List UInt64) (state : UInt64) :
    ∀ {t : Ty}, t.isConstInitializable = false →
      ∃ f, (constant env t : Draw Stream Node) ⟨failingWords t ++ rest, state⟩ = .error f
  | .scalar k, h => by
      cases k with
      | void => exact ⟨_, rfl⟩
      | _ => cases h
  | .enum _, h => nomatch h
  | .object _, _ => ⟨_, rfl⟩
  | .tuple _, _ => ⟨_, rfl⟩
  | .callable _, _ => ⟨_, rfl⟩
  | .array elem, h => by
      obtain ⟨f, hf⟩ := constant_fails env rest state (t := elem) h
      refine ⟨f, ?_⟩
      rw [constant, failingWords]
      -- The array has three elements, and the first one fails.
      refine (Runs.bind_of_ok (range_scripted _ _)).trans (Runs.bind_of_error ?_)
      rw [times]
      exact Runs.bind_of_error hf
  | .nullable inner, h => by
      obtain ⟨f, hf⟩ := constant_fails env rest state (t := inner) h
      refine ⟨f, ?_⟩
      rw [constant, failingWords]
      exact (Runs.bind_of_ok (chance_scripted (by decide +kernel) (by decide +kernel)
        (b := false) (by decide +kernel) _ _)).trans hf
  | .union x y, h => by
      rw [constant, failingWords]
      cases hx : x.isConstInitializable with
      | false =>
          obtain ⟨f, hf⟩ := constant_fails env rest state hx
          refine ⟨f, ?_⟩
          exact (Runs.bind_of_ok (chance_scripted (by decide) (by decide) (b := true)
            (by decide +kernel) _ _)).trans hf
      | true =>
          have hy : y.isConstInitializable = false := by
            rwa [Ty.isConstInitializable, hx, Bool.true_and] at h
          obtain ⟨f, hf⟩ := constant_fails env rest state hy
          refine ⟨f, ?_⟩
          exact (Runs.bind_of_ok (chance_scripted (by decide) (by decide) (b := false)
            (by decide +kernel) _ _)).trans hf

/-! ## The answer and the draw -/

/-- A type's values can be written as constants exactly if a constant is drawn from every
source, where no enum of the type is empty and edge cases have a chance. Whatever is drawn, from
whatever source, is a constant of the type. -/
theorem constant_exact (env : Env) {t : Ty} (henums : ∀ e ∈ t.enums, e.values ≠ []) :
    (env.config.interesting.isProbability = true →
      (t.isConstInitializable = true ↔ ∀ {ρ : Type} [WordSource ρ] (s : ρ),
        ∃ n s', (constant env t : Draw ρ Node) s = .ok (n, s'))) ∧
    ∀ {ρ : Type} [WordSource ρ] (s s' : ρ) (n : Node), (constant env t : Draw ρ Node) s =
      .ok (n, s') → ConstantOf t n ∧ n.Every Node.ConstantPart := by
  refine ⟨fun hp => ⟨fun hinit ρ _ s => ?_, fun hall => ?_⟩, fun {ρ} _ s s' n hrun => ?_⟩
  -- With no fault admitted, a draw for a type with constants has to return.
  · have hgives : Gives (fun _ => False) (constant env t : Draw ρ Node) (DrawnConstant t) := by
      refine constant_gives_admitting ?_ ?_ henums
      · rw [hp]
        exact nofun
      · rw [hinit]
        exact nofun
    cases hrun : (constant env t : Draw ρ Node) s with
    | error f => exact ((hgives.runs s).of_error hrun).elim
    | ok r => exact ⟨r.1, r.2, rfl⟩
  · by_contra hinit
    obtain ⟨f, hf⟩ := constant_fails env [] 0 (Bool.eq_false_iff.2 hinit)
    obtain ⟨n, s', hrun⟩ := hall (ρ := Stream) ⟨failingWords t ++ [], 0⟩
    rw [hf] at hrun
    cases hrun
  · have hgives : Gives (fun _ => True) (constant env t : Draw ρ Node) (DrawnConstant t) :=
      constant_gives_admitting (fun _ => trivial) (fun _ _ => trivial) fun _ _ _ => trivial
    have hconstant : ConstantOf t n := ((hgives.runs s).of_ok hrun).constant
    exact ⟨hconstant, hconstant.parts⟩

/-- A union of integers and of lists of objects has constants on some sources, but not on all. -/
theorem constant_exact_union :
    let env := (Generator.bare 0).env
    let t : Ty := .union .int (.array (.object ⟨0, "C0"⟩))
    (¬ ∀ {ρ : Type} [WordSource ρ] (s : ρ), ∃ n s', (constant env t : Draw ρ Node) s =
      .ok (n, s')) ∧
    ∃ n s', (constant env t : Draw Stream Node) ⟨[0, greatestWord], 0⟩ = .ok (n, s') ∧
      n.op = .intLit ∧ ConstantOf t n ∧ n.Every Node.ConstantPart := by
  intro env t
  obtain ⟨hiff, hconstant⟩ := constant_exact env (t := t) nofun
  refine ⟨fun hall => absurd ((hiff (by decide +kernel)).2 hall) nofun, ?_⟩
  have hany : ((constant env t : Draw Stream Node) ⟨[0, greatestWord], 0⟩).toOption.any
      (fun r => r.1.op == .intLit) = true := by
    decide +kernel
  obtain ⟨n, s', hrun, hop⟩ := Runs.exists_of_check hany
  exact ⟨n, s', hrun, eq_of_beq hop, hconstant _ _ _ hrun⟩

end Draw

end TypedPhp
