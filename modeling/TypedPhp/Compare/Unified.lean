import TypedPhp.Compare.Script

set_option autoImplicit false

/-!
# Unified diffs

The text of a script of lines. A kept line is shown if at most two kept lines stand between it
and a change; the shown stretches are the hunks. The head of a hunk tells which lines of the
old and of the new text it covers.
-/

namespace TypedPhp.Unified

/-- How many kept lines are shown on either side of a change. -/
def context : Nat := 3

variable {α : Type}

/-- Which steps are changes or among the next `left` steps, or among the next few steps after a
change. -/
def shownAfter (left : Nat) : Script α → List Bool
  | [] => []
  | e :: es =>
    if e.isKeep then decide (0 < left) :: shownAfter (left - 1) es
    else true :: shownAfter context es

/-- Which steps are shown: changes, and the kept lines near one. -/
def shown (s : Script α) : List Bool :=
  List.zipWith (· || ·) (shownAfter 0 s) (shownAfter 0 s.reverse).reverse

/-- A stretch of a script. -/
structure Hunk (α : Type) where
  /-- How many old elements come before it. -/
  oldBefore : Nat
  /-- How many new elements come before it. -/
  newBefore : Nat
  edits : Script α
deriving Repr

/-- The longest stretches of shown steps, after the given numbers of old and new elements. -/
def hunksFrom (oldBefore newBefore : Nat) : List (Edit α × Bool) → List (Hunk α)
  | [] => []
  | (e, isShown) :: rest =>
    let later :=
      hunksFrom (oldBefore + e.old?.toList.length) (newBefore + e.new?.toList.length) rest
    let touches :=
      match rest with
      | (_, nextShown) :: _ => nextShown
      | [] => false
    if !isShown then later
    else
      match touches, later with
      | true, h :: hs => ⟨oldBefore, newBefore, e :: h.edits⟩ :: hs
      | _, hs => ⟨oldBefore, newBefore, [e]⟩ :: hs

/-- The hunks of a script. -/
def hunks (s : Script α) : List (Hunk α) := hunksFrom 0 0 (s.zip (shown s))

/-- The lines that a hunk covers: the number of the first one, and how many they are unless it
is one. Of no lines, the one before is named. -/
def range (before length : Nat) : String :=
  if length = 1 then toString (before + 1)
  else toString (if length = 0 then before else before + 1) ++ "," ++ toString length

/-- A line with its sign. A line that does not end is followed by a remark. -/
def line (sign : String) (text : String) : String :=
  let ends :=
    match text.toList.getLast? with
    | some c => c = '\n' || c = '\r'
    | none => false
  sign ++ text ++ (if ends then "" else "\n\\ No newline at end of file\n")

/-- A step of a hunk. -/
def edit : Edit String → String
  | .keep l => line " " l
  | .delete l => line "-" l
  | .insert l => line "+" l

/-- The text of a hunk. -/
def hunk (h : Hunk String) : String :=
  "@@ -" ++ range h.oldBefore h.edits.old.length ++ " +" ++
    range h.newBefore h.edits.new.length ++ " @@\n" ++ String.join (h.edits.map edit)

/-- The text of a script of lines, under the names of the old and the new text. -/
def text (oldName newName : String) (s : Script String) : String :=
  "--- " ++ oldName ++ "\n+++ " ++ newName ++ "\n" ++ String.join ((hunks s).map hunk)

end TypedPhp.Unified
