import TypedPhp.Random.Source

set_option autoImplicit false

/-!
# Repeated sampling

Samples are taken until one is suitable, or until enough of them differ from each other. The
equality need not be reflexive: a sample that does not equal itself is never a repetition.
-/

namespace TypedPhp.Draw

variable {σ α : Type}

/-- The first sample that is suitable, in at most the given number of attempts. -/
def suchThat (suitable : α → Bool) (sample : Draw σ α) : (attempts : Nat) → Draw σ α
  | 0 => throw .outOfAttempts
  | attempts + 1 => do
    let x ← sample
    if suitable x then return x else suchThat suitable sample attempts

/-- Samples until `wanted` more are kept that differ from those in `kept` and from each other,
in at most the given number of attempts. The newest of `kept` comes first. -/
def distinctFrom (eqv : α → α → Bool) (sample : Draw σ α) :
    (attempts wanted : Nat) → (kept : List α) → Draw σ (List α)
  | _, 0, kept => pure kept.reverse
  | 0, _ + 1, _ => throw .outOfAttempts
  | attempts + 1, wanted + 1, kept => do
    let x ← sample
    if kept.any (eqv · x) then distinctFrom eqv sample attempts (wanted + 1) kept
    else distinctFrom eqv sample attempts wanted (x :: kept)

/-- The first `n` samples that differ from all samples kept before them. -/
def distinct (eqv : α → α → Bool) (attempts n : Nat) (sample : Draw σ α) : Draw σ (List α) :=
  distinctFrom eqv sample attempts n []

/-- The next element of a finite sequence of samples. -/
def ofSequence : Draw (List α) α
  | [] => .error .sequenceEnded
  | x :: xs => .ok (x, xs)

end TypedPhp.Draw
