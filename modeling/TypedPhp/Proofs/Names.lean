import Mathlib.Tactic.Common

set_option autoImplicit false

/-!
# Numbered names

Fresh names are a fixed beginning followed by a number in decimal digits, and some go on after it. A
number ends where its digits end, so it can be read back from the name, and different numbers give
different names.
-/

namespace TypedPhp

theorem toString_inj {i j : Nat} (h : toString i = toString j) : i = j := by
  have hdigits : Nat.toDigits 10 i = Nat.toDigits 10 j := by
    rw [← Nat.toList_repr, ← Nat.toList_repr]
    exact congrArg String.toList h
  rw [← Nat.ofDigitChars_ten_toDigits (n := i), hdigits, Nat.ofDigitChars_ten_toDigits]

theorem numbered_inj {start : String} {i j : Nat} (h : start ++ toString i = start ++ toString j) :
    i = j :=
  toString_inj ((String.append_right_inj start).1 h)

/-- A number and what follows it are determined by the text, if what follows begins with no digit.
-/
theorem digits_append_inj {ds es xs ys : List Char} (hd : ∀ c ∈ ds, c.isDigit = true)
    (he : ∀ c ∈ es, c.isDigit = true) (hx : ∀ c ∈ xs.head?, c.isDigit = false)
    (hy : ∀ c ∈ ys.head?, c.isDigit = false) (h : ds ++ xs = es ++ ys) : ds = es ∧ xs = ys := by
  -- Where one run of digits ends before the other, the next character of one text is a digit and
  -- that of the other is none.
  induction ds generalizing es with
  | nil =>
      cases es with
      | nil => exact ⟨rfl, h⟩
      | cons e es =>
          obtain rfl : xs = e :: (es ++ ys) := h
          have hdigit := he e List.mem_cons_self
          rw [hx e rfl] at hdigit
          cases hdigit
  | cons d ds ih =>
      cases es with
      | nil =>
          obtain rfl : d :: (ds ++ xs) = ys := h
          have hdigit := hd d List.mem_cons_self
          rw [hy d rfl] at hdigit
          cases hdigit
      | cons e es =>
          rw [List.cons_append, List.cons_append, List.cons.injEq] at h
          obtain ⟨rfl, hrest⟩ := ih (fun c hc => hd c (List.mem_cons_of_mem d hc))
            (fun c hc => he c (List.mem_cons_of_mem e hc)) h.2
          exact ⟨by rw [h.1], hrest⟩

/-- A numbered name with an ending determines its number and the ending, if that begins with no
digit. -/
theorem numbered_append_inj {start x y : String} {i j : Nat}
    (hx : ∀ c ∈ x.toList.head?, c.isDigit = false) (hy : ∀ c ∈ y.toList.head?, c.isDigit = false)
    (h : start ++ toString i ++ x = start ++ toString j ++ y) : i = j ∧ x = y := by
  rw [String.append_assoc, String.append_assoc, String.append_right_inj] at h
  have hdigits : ∀ n : Nat, ∀ c ∈ (toString n).toList, c.isDigit = true := by
    intro n c hc
    rw [show (toString n).toList = Nat.toDigits 10 n from Nat.toList_repr] at hc
    exact Nat.isDigit_of_mem_toDigits (by decide) (by decide) hc
  have hlist : (toString i).toList ++ x.toList = (toString j).toList ++ y.toList := by
    rw [← String.toList_append, h, String.toList_append]
  obtain ⟨hi, hrest⟩ := digits_append_inj (hdigits i) (hdigits j) hx hy hlist
  exact ⟨toString_inj (String.toList_inj.1 hi), String.toList_inj.1 hrest⟩

theorem ne_of_head {x y : String} (h : x.toList.head? ≠ y.toList.head?) : x ≠ y := by
  rintro rfl
  exact h rfl

theorem var_ne_counter (i j : Nat) : "v" ++ toString i ≠ "_c" ++ toString j := by
  apply ne_of_head
  simp [String.toList_append]

theorem param_ne_counter (i j : Nat) : "p" ++ toString i ≠ "_c" ++ toString j := by
  apply ne_of_head
  simp [String.toList_append]

/-- The name of a variable: the current object, or a numbered parameter, variable or counter. -/
def VariableName (s : String) : Prop :=
  s = "this" ∨ ∃ start ∈ ["p", "v", "_c"], ∃ i : Nat, s = start ++ toString i

theorem VariableName.fresh (i : Nat) : VariableName ("v" ++ toString i) :=
  Or.inr ⟨"v", by decide, i, rfl⟩

theorem VariableName.counter (i : Nat) : VariableName ("_c" ++ toString i) :=
  Or.inr ⟨"_c", by decide, i, rfl⟩

theorem var_ne_this (i : Nat) : "v" ++ toString i ≠ "this" := by
  apply ne_of_head
  simp [String.toList_append]

end TypedPhp
