import TypedPhp.Compare.Script

set_option autoImplicit false

/-!
# The script between two lists

`Alignment.between` fills its rows from the end of the old list. Read by its first elements
it is the usual recursion on both lists (`between_cons_cons` with its two boundary cases), and
everything else follows from that: the script starts from the old list and ends with the new
one, and it changes nothing exactly if the two are equal.
-/

namespace TypedPhp

variable {α : Type}

namespace Script

/-- A script that changes nothing ends with the list that it starts from. -/
theorem old_eq_new_of_isUnchanged {s : Script α} (hs : s.isUnchanged = true) : s.old = s.new := by
  induction s with
  | nil => rfl
  | cons e s ih =>
    cases e with
    | keep x =>
      have hrest : old s = new s := ih (by simpa [isUnchanged, Edit.isKeep] using hs)
      simp only [old, new] at hrest ⊢
      simp [Edit.old?, Edit.new?, hrest]
    | delete x => simp [isUnchanged, Edit.isKeep] at hs
    | insert x => simp [isUnchanged, Edit.isKeep] at hs

end Script

namespace Alignment

/-- The script of an alignment turns one list into another. -/
def Turns (a : Alignment α) (old new : List α) : Prop := a.script.old = old ∧ a.script.new = new

namespace Turns

variable {a : Alignment α} {old new : List α}

theorem keep (h : Turns a old new) (x : α) : Turns (a.keep x) (x :: old) (x :: new) := by
  obtain ⟨rfl, rfl⟩ := h
  exact ⟨rfl, rfl⟩

theorem delete (h : Turns a old new) (x : α) : Turns (a.delete x) (x :: old) new := by
  obtain ⟨rfl, rfl⟩ := h
  exact ⟨rfl, rfl⟩

theorem insert (h : Turns a old new) (y : α) : Turns (a.insert y) old (y :: new) := by
  obtain ⟨rfl, rfl⟩ := h
  exact ⟨rfl, rfl⟩

end Turns

variable [DecidableEq α]

/-- The row that `between` reads its alignment from. -/
def row (old new : List α) : Row α := old.foldr (fun x row => row.extend x) (Row.start new)

theorem row_cons_left (x : α) (old new : List α) : row (x :: old) new = (row old new).extend x :=
  rfl

theorem between_eq (old new : List α) : between old new = (row old new).first := rfl

theorem row_nil (old : List α) : ∃ a, row old [] = .last a := by
  induction old with
  | nil => exact ⟨_, rfl⟩
  | cons x old ih =>
    obtain ⟨a, ha⟩ := ih
    exact ⟨a.delete x, by rw [row_cons_left, ha]; rfl⟩

/-- A row continues with the row of the new list without its first element. -/
theorem row_cons (old : List α) (y : α) (new : List α) :
    ∃ a, row old (y :: new) = .cell y a (row old new) := by
  induction old with
  | nil => exact ⟨_, rfl⟩
  | cons x old ih =>
    obtain ⟨a, ha⟩ := ih
    exact ⟨step x y a (row old new).first (row (x :: old) new).first,
      by rw [row_cons_left, ha]; rfl⟩

theorem between_nil (y : α) (new : List α) :
    between [] (y :: new) = (between [] new).insert y := rfl

theorem between_cons_nil (x : α) (old : List α) :
    between (x :: old) [] = (between old []).delete x := by
  obtain ⟨a, ha⟩ := row_nil old
  simp only [between_eq, row_cons_left, ha, Row.extend, Row.first]

theorem between_cons_cons (x y : α) (old new : List α) :
    between (x :: old) (y :: new) =
      step x y (between old (y :: new)) (between old new) (between (x :: old) new) := by
  obtain ⟨a, ha⟩ := row_cons old y new
  simp only [between_eq, row_cons_left, ha, Row.extend, Row.first]

theorem between_turns (old new : List α) : Turns (between old new) old new := by
  induction old generalizing new with
  | nil =>
    induction new with
    | nil => exact ⟨rfl, rfl⟩
    | cons y new ih => exact between_nil y new ▸ ih.insert y
  | cons x old ihOld =>
    induction new with
    | nil => exact between_cons_nil x old ▸ (ihOld []).delete x
    | cons y new ihNew =>
      rw [between_cons_cons]
      unfold step
      split
      next heq =>
        subst heq
        exact (ihOld new).keep x
      next hne =>
        split
        · exact (ihOld (y :: new)).delete x
        · exact ihNew.insert y

end Alignment

namespace Script

variable [DecidableEq α]

theorem between_old (old new : List α) : (between old new).old = old :=
  (Alignment.between_turns old new).1

theorem between_new (old new : List α) : (between old new).new = new :=
  (Alignment.between_turns old new).2

theorem between_self (xs : List α) : (between xs xs).isUnchanged = true := by
  induction xs with
  | nil => rfl
  | cons x xs ih =>
    have hkeep : between (x :: xs) (x :: xs) = .keep x :: between xs xs := by
      simp only [between, Alignment.between_cons_cons, Alignment.step, if_true, Alignment.keep]
    simpa [hkeep, isUnchanged, Edit.isKeep] using ih

end Script

end TypedPhp
