set_option autoImplicit false

/-!
# Edit scripts

A script turns an old list into a new one by keeping, deleting and inserting elements.
`Script.between` keeps as many elements as any script can. It is found by aligning every rest
of the old list with every rest of the new one; a row holds the alignments of one rest of the
old list.
-/

namespace TypedPhp

/-- One step of a script. -/
inductive Edit (α : Type) where
  | keep (x : α)
  | delete (x : α)
  | insert (x : α)
deriving DecidableEq, Repr

namespace Edit

variable {α : Type}

def isKeep : Edit α → Bool
  | keep _ => true
  | _ => false

/-- The element of the old list that a step uses up. -/
def old? : Edit α → Option α
  | keep x | delete x => some x
  | insert _ => none

/-- The element of the new list that a step supplies. -/
def new? : Edit α → Option α
  | keep x | insert x => some x
  | delete _ => none

end Edit

/-- A way to turn an old list into a new one. -/
abbrev Script (α : Type) := List (Edit α)

namespace Script

variable {α : Type}

/-- The list that a script starts from. -/
def old (s : Script α) : List α := s.filterMap Edit.old?

/-- The list that a script ends with. -/
def new (s : Script α) : List α := s.filterMap Edit.new?

/-- Whether a script changes nothing. -/
def isUnchanged (s : Script α) : Bool := s.all Edit.isKeep

end Script

/-- A script with the number of elements that it keeps. -/
structure Alignment (α : Type) where
  kept : Nat
  script : Script α
deriving Repr

namespace Alignment

variable {α : Type}

def empty : Alignment α := ⟨0, []⟩

def keep (x : α) (a : Alignment α) : Alignment α := ⟨a.kept + 1, .keep x :: a.script⟩

def delete (x : α) (a : Alignment α) : Alignment α := ⟨a.kept, .delete x :: a.script⟩

def insert (y : α) (a : Alignment α) : Alignment α := ⟨a.kept, .insert y :: a.script⟩

/-- The alignment of lists that start with `x` and `y`, from those with `x` left off, with both
left off, and with `y` left off. Equal elements are kept, and a deletion goes first where it
costs nothing. -/
def step [DecidableEq α] (x y : α) (withoutOld withoutBoth withoutNew : Alignment α) :
    Alignment α :=
  if x = y then withoutBoth.keep x
  else if withoutNew.kept ≤ withoutOld.kept then withoutOld.delete x
  else withoutNew.insert y

/-- The alignments of one old list with every rest of a new list, longest first. -/
inductive Row (α : Type) where
  /-- The alignment with the empty rest. -/
  | last (a : Alignment α)
  /-- The alignment with the rest that starts with `y`. -/
  | cell (y : α) (a : Alignment α) (shorter : Row α)

namespace Row

/-- The alignment with the whole new list. -/
def first : Row α → Alignment α
  | last a => a
  | cell _ a _ => a

/-- The row of the empty old list. -/
def start : List α → Row α
  | [] => last empty
  | y :: ys =>
    let shorter := start ys
    cell y (shorter.first.insert y) shorter

/-- The row of an old list with one more element in front. -/
def extend [DecidableEq α] (x : α) : Row α → Row α
  | last a => last (a.delete x)
  | cell y a shorter =>
    let right := extend x shorter
    cell y (step x y a shorter.first right.first) right

end Row

/-- An alignment of two lists that keeps as many elements as possible. -/
def between [DecidableEq α] (old new : List α) : Alignment α :=
  (old.foldr (fun x row => row.extend x) (Row.start new)).first

end Alignment

/-- A script from one list to another that keeps as many elements as possible. Between two kept
elements, deletions come before insertions. -/
def Script.between {α : Type} [DecidableEq α] (old new : List α) : Script α :=
  (Alignment.between old new).script

end TypedPhp
