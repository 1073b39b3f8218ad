import TypedPhp.Fault

set_option autoImplicit false

/-!
# Sources of random words

A source yields words of 32 and 64 bits and changes with every word. `Draw ρ α` is a
computation that takes words from a source of type `ρ`; it has a result and the source that is
left, or a fault.
-/

namespace TypedPhp

/-- A source of random words. -/
class WordSource (ρ : Type) where
  next32 : ρ → UInt32 × ρ
  next64 : ρ → UInt64 × ρ

/-- A computation that draws words from a source. -/
abbrev Draw (ρ : Type) (α : Type) := StateT ρ (Except Fault) α

namespace Draw

variable {ρ : Type} [WordSource ρ]

/-- The next word of 32 bits. -/
def word32 : Draw ρ Nat := fun s =>
  let (w, s) := WordSource.next32 s
  .ok (w.toNat, s)

/-- The next word of 64 bits. -/
def word64 : Draw ρ Nat := fun s =>
  let (w, s) := WordSource.next64 s
  .ok (w.toNat, s)

/-- A result that needs no word. -/
def lift {α : Type} (x : Except Fault α) : Draw ρ α := fun s => x.map (·, s)

/-- The results of a computation run `n` times. -/
def times {α : Type} (x : Draw ρ α) : Nat → Draw ρ (List α)
  | 0 => pure []
  | n + 1 => do
    let a ← x
    let rest ← times x n
    return a :: rest

/-- The results of a computation for every element of a list, in order. -/
def each {α β : Type} (f : α → Draw ρ β) : List α → Draw ρ (List β)
  | [] => pure []
  | a :: as => do
    let b ← f a
    let rest ← each f as
    return b :: rest

end Draw

end TypedPhp
