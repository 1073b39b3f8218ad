import TypedPhp.Random.Sampling

set_option autoImplicit false

/-!
# Weighted lists

The options of a weighted list are laid out in a table of slots, each option in as many slots
as its frequency says, so that one uniform draw over the table makes the choice. Frequencies and
slots are words of 16 bits. A list without any slot is refused.
-/

namespace TypedPhp

/-- An option, its frequency, and what to try when it cannot be carried out. -/
structure Choice (κ : Type) where
  frequency : UInt16
  option : κ
  fallback : Option κ
deriving Repr

/-- Options with a table of slots that hold places in the list of options. -/
structure ChoiceList (κ : Type) where
  options : List (Choice κ)
  slots : List UInt16
deriving Repr

namespace ChoiceList

variable {κ : Type}

/-- The slots of the options from place `i` on. A place beyond 16 bits is cut off to its low
bits. -/
def slotsFrom (i : Nat) : List (Choice κ) → List UInt16
  | [] => []
  | c :: cs => List.replicate c.frequency.toNat (UInt16.ofNat i) ++ slotsFrom (i + 1) cs

/-- The weighted list of some options. -/
def ofOptions (options : List (Choice κ)) : Except Fault (ChoiceList κ) :=
  match slotsFrom 0 options with
  | [] => .error .emptyChoiceList
  | slot :: slots => .ok ⟨options, slot :: slots⟩

/-- The option that a slot refers to. -/
def atSlot (l : ChoiceList κ) (slot : Nat) : Except Fault (Choice κ) := do
  let i ← elemAt l.slots slot
  elemAt l.options i.toNat

/-- An option, with a chance in proportion to its frequency. -/
def draw {ρ : Type} [WordSource ρ] (l : ChoiceList κ) : Draw ρ (Choice κ) := do
  let slot ← Draw.place l.slots.length
  Draw.lift (l.atSlot slot)

end ChoiceList

end TypedPhp
