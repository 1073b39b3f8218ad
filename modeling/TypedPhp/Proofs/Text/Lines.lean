import TypedPhp.Text.Lines
import Mathlib.Data.List.Forall2

set_option autoImplicit false

/-!
# Lines, rows and words of a text

`Text.lines` loses nothing (`join_lines`). `Text.rows` is tied to `RowsOf`, which tells what
the rows of a text are without running over it. `Text.occurs` is the search for a stretch.

The last part is about small letters. `LowersTo` tells what a character may become; outside
ASCII only two characters become ASCII at all. A `Plain` word avoids what these two become,
and is then found in a lowered text exactly if it is found after ASCII letters alone are
lowered (`infix_lowered`).
-/

namespace TypedPhp.Text

/-! ## Lines with their ends -/

theorem flatten_linesFrom (before cs : List Char) :
    (linesFrom before cs).flatten = before.reverse ++ cs := by
  fun_induction linesFrom before cs with
  | case1 before hempty => simp [List.isEmpty_iff.mp hempty]
  | case2 before hsome => simp
  | case3 before rest ih => simp [ih]
  | case4 before c rest hpair hend ih => simp [ih]
  | case5 before c rest hpair hend ih => simp [ih]

/-- Nothing is lost between the lines of a text. -/
theorem join_lines (text : String) : String.join (lines text) = text := by
  apply String.toList_inj.mp
  have hchars : (lines text).map String.toList = linesFrom [] text.toList := by
    simp [lines, Function.comp_def]
  rw [String.toList_join, List.flatMap_def, hchars, flatten_linesFrom]
  rfl

/-! ## Rows -/

/-- The rows of a text: a line feed ends a row, with a carriage return just before it; what
follows the last line feed is a row unless it is empty. -/
inductive RowsOf : List Char → List (List Char) → Prop where
  | empty : RowsOf [] []
  | last {row : List Char} (hsome : row ≠ []) (hrow : '\n' ∉ row) : RowsOf row [row]
  | feed {row rest : List Char} {rows : List (List Char)} (hrow : '\n' ∉ row)
      (hend : row.getLast? ≠ some '\r') (hrest : RowsOf rest rows) :
      RowsOf (row ++ '\n' :: rest) (row :: rows)
  | returnFeed {row rest : List Char} {rows : List (List Char)} (hrow : '\n' ∉ row)
      (hrest : RowsOf rest rows) : RowsOf (row ++ '\r' :: '\n' :: rest) (row :: rows)

/-- A row that goes on. -/
theorem rowsFrom_append {row : List Char} (hrow : '\n' ∉ row) (before rest : List Char) :
    rowsFrom before (row ++ rest) = rowsFrom (row.reverse ++ before) rest := by
  induction row generalizing before with
  | nil => rfl
  | cons c row ih =>
    obtain ⟨hc, hrow⟩ : '\n' ≠ c ∧ '\n' ∉ row := by simpa using hrow
    simp only [List.cons_append, rowsFrom, Ne.symm hc, if_false, ih hrow]
    simp

theorem dropReturn_reverse {row : List Char} (hend : row.getLast? ≠ some '\r') :
    dropReturn row.reverse = row.reverse := by
  have hhead : row.reverse.head? ≠ some '\r' := by simpa using hend
  unfold dropReturn
  split
  next heq => simp [heq] at hhead
  next => rfl

theorem rowsFrom_of_rowsOf {cs : List Char} {rows : List (List Char)} (h : RowsOf cs rows) :
    rowsFrom [] cs = rows := by
  induction h with
  | empty => rfl
  | @last row hsome hrow =>
    have hread := rowsFrom_append hrow [] []
    simp only [List.append_nil] at hread
    simp [hread, rowsFrom, hsome]
  | feed hrow hend hrest ih =>
    simp [rowsFrom_append hrow, rowsFrom, dropReturn_reverse hend, ih]
  | returnFeed hrow hrest ih =>
    simp [rowsFrom_append hrow, rowsFrom, dropReturn, ih]

theorem rowsOf_rowsFrom (before cs : List Char) (hbefore : '\n' ∉ before) :
    RowsOf (before.reverse ++ cs) (rowsFrom before cs) := by
  -- The row so far is kept in reverse, so a carriage return before the line break is its first
  -- character.
  induction cs generalizing before with
  | nil =>
    cases before with
    | nil => exact .empty
    | cons c before =>
        simpa [rowsFrom] using RowsOf.last (by simp) (by simpa [and_comm] using hbefore)
  | cons c cs ih =>
    by_cases hc : c = '\n'
    · subst hc
      have hrest : RowsOf cs (rowsFrom [] cs) := ih [] (by simp)
      simp only [rowsFrom, if_true]
      by_cases hreturn : ∃ row, before = '\r' :: row
      · obtain ⟨row, rfl⟩ := hreturn
        have hrow : '\n' ∉ row.reverse := by simpa using hbefore
        simpa [dropReturn] using RowsOf.returnFeed hrow hrest
      · have hend : before.reverse.getLast? ≠ some '\r' := by
          intro hlast
          cases before with
          | nil => simp at hlast
          | cons d before => exact hreturn ⟨before, by simpa using hlast⟩
        have hkept := dropReturn_reverse hend
        rw [List.reverse_reverse] at hkept
        rw [hkept]
        exact .feed (by simpa using hbefore) hend hrest
    · have hmore : RowsOf ((c :: before).reverse ++ cs) (rowsFrom (c :: before) cs) :=
        ih (c :: before) (by simpa [Ne.symm hc] using hbefore)
      simpa [rowsFrom, hc] using hmore

theorem rowsOf_iff (cs : List Char) (rows : List (List Char)) :
    RowsOf cs rows ↔ rowsFrom [] cs = rows :=
  ⟨rowsFrom_of_rowsOf, fun h => h ▸ rowsOf_rowsFrom [] cs (by simp)⟩

/-! ## Words -/

theorem occurs_iff (pattern cs : List Char) : occurs pattern cs = true ↔ pattern <:+: cs := by
  induction cs with
  | nil => simp [occurs]
  | cons c cs ih => simp [occurs, ih, List.infix_cons_iff]

/-- What a character may become where a text is put in small letters. -/
inductive LowersTo : Char → List Char → Prop where
  | ascii {c : Char} (hc : c.toNat < 128) : LowersTo c [c.toLower]
  /-- The sign of the kelvin. -/
  | kelvin : LowersTo '\u212a' ['k']
  /-- The capital i with a dot keeps its dot, as a character of its own. -/
  | dotted : LowersTo '\u0130' ['i', '\u0307']
  | other {c d : Char} {image : List Char} (hc : 128 ≤ c.toNat)
      (himage : ∀ e ∈ d :: image, 128 ≤ e.toNat) : LowersTo c (d :: image)

/-- A text in small letters: every character becomes one of its images. -/
def Lowers (cs lowered : List Char) : Prop :=
  ∃ images, List.Forall₂ LowersTo cs images ∧ lowered = images.flatten

/-- Small letters for ASCII and for the two characters that become ASCII. -/
def lowerChar (c : Char) : List Char :=
  if c.toNat < 128 then [c.toLower]
  else if c = '\u212a' then ['k']
  else if c = '\u0130' then ['i', '\u0307']
  else [c]

theorem lowersTo_lowerChar (c : Char) : LowersTo c (lowerChar c) := by
  unfold lowerChar
  split
  next hascii => exact .ascii hascii
  next hforeign =>
    split
    next hkelvin => exact hkelvin ▸ .kelvin
    next =>
      split
      next hdotted => exact hdotted ▸ .dotted
      next => exact .other (by omega) (by simpa using hforeign)

theorem lowers_flatMap (cs : List Char) : Lowers cs (cs.flatMap lowerChar) := by
  refine ⟨cs.map lowerChar, ?_, List.flatMap_def⟩
  rw [List.forall₂_map_right_iff]
  exact List.forall₂_same.mpr fun c _ => lowersTo_lowerChar c

/-- A word of ASCII characters that no character from outside ASCII becomes a part of. -/
structure Plain (word : List Char) : Prop where
  ascii : ∀ c ∈ word, c.toNat < 128
  noKelvin : 'k' ∉ word
  noDotted : word.getLast? ≠ some 'i'

namespace Plain

theorem tail {c : Char} {word : List Char} (h : Plain (c :: word)) : Plain word where
  ascii d hd := h.ascii d (.tail _ hd)
  noKelvin hk := h.noKelvin (.tail _ hk)
  noDotted hlast := by
    cases word with
    | nil => simp at hlast
    | cons d word => exact h.noDotted (by simpa using hlast)

end Plain

theorem toLower_foreign {c : Char} (hc : 128 ≤ c.toNat) : c.toLower = c := by
  have hnot : ¬ (c.val ≥ 65 ∧ c.val ≤ 90) := by
    intro hupper
    have hle : c.val.toNat ≤ 90 := hupper.2
    have hsame : c.toNat = c.val.toNat := rfl
    omega
  exact dif_neg hnot

namespace Plain

variable {a d : Char} {word : List Char}

theorem not_prefix_foreign (h : Plain (a :: word)) (hd : 128 ≤ d.toNat) (cs : List Char) :
    ¬ (a :: word) <+: (d :: cs) := by
  intro hprefix
  obtain ⟨rfl, -⟩ := List.cons_prefix_cons.mp hprefix
  have hascii : a.toNat < 128 := h.ascii a (.head _)
  omega

theorem not_prefix_kelvin (h : Plain (a :: word)) (cs : List Char) :
    ¬ (a :: word) <+: ('k' :: cs) := by
  intro hprefix
  obtain ⟨rfl, -⟩ := List.cons_prefix_cons.mp hprefix
  exact h.noKelvin (.head _)

theorem not_prefix_dotted (h : Plain (a :: word)) (cs : List Char) :
    ¬ (a :: word) <+: ('i' :: '\u0307' :: cs) := by
  intro hprefix
  obtain ⟨rfl, hrest⟩ := List.cons_prefix_cons.mp hprefix
  cases word with
  | nil => exact h.noDotted rfl
  | cons b word => exact h.tail.not_prefix_foreign (by decide) cs hrest

/-- A stretch from outside ASCII may be left out of the search. -/
theorem infix_foreign (h : Plain (a :: word)) {image : List Char}
    (himage : ∀ d ∈ image, 128 ≤ d.toNat) (cs : List Char) :
    (a :: word) <:+: image ++ cs ↔ (a :: word) <:+: cs := by
  induction image with
  | nil => rfl
  | cons d image ih =>
    have hstart := h.not_prefix_foreign (himage d (.head _)) (image ++ cs)
    have hrest := ih fun e he => himage e (.tail _ he)
    rw [List.cons_append, List.infix_cons_iff, hrest]
    simp [hstart]

/-- At its beginning a lowered text holds the word exactly if it does with its ASCII letters
lowered. -/
theorem prefix_lowered {word cs : List Char} {images : List (List Char)} (h : Plain word)
    (himages : List.Forall₂ LowersTo cs images) :
    word <+: images.flatten ↔ word <+: cs.map Char.toLower := by
  induction himages generalizing word with
  | nil => rfl
  | @cons c image cs images himage _ ih =>
    cases word with
    | nil => simp
    | cons a word =>
      -- Outside of ASCII neither text can begin with a letter of the word, which is plain.
      cases himage with
      | ascii hc => simp [List.cons_prefix_cons, ih h.tail]
      | kelvin =>
        have hleft := h.not_prefix_kelvin images.flatten
        have hright := h.not_prefix_foreign (d := '\u212a') (by decide) (cs.map Char.toLower)
        simpa [hleft] using hright
      | dotted =>
        have hleft := h.not_prefix_dotted images.flatten
        have hright := h.not_prefix_foreign (d := '\u0130') (by decide) (cs.map Char.toLower)
        simpa [hleft] using hright
      | @other _ d tail hc hforeign =>
        have hleft := h.not_prefix_foreign (hforeign d (.head _)) (tail ++ images.flatten)
        have hright := h.not_prefix_foreign hc (cs.map Char.toLower)
        simpa [hleft, toLower_foreign hc] using hright

/-- Within the image of one character the word begins at its first character only. -/
theorem infix_image (h : Plain (a :: word)) {c : Char} {image : List Char}
    (himage : LowersTo c image) (cs : List Char) :
    (a :: word) <:+: image ++ cs ↔ (a :: word) <+: image ++ cs ∨ (a :: word) <:+: cs := by
  cases himage with
  | ascii hc => exact List.infix_cons_iff
  | kelvin => exact List.infix_cons_iff
  | dotted =>
    have hforeign : ∀ d ∈ ['\u0307'], 128 ≤ d.toNat := List.forall_mem_singleton.2 (by decide)
    have hdot : (a :: word) <:+: '\u0307' :: cs ↔ (a :: word) <:+: cs :=
      h.infix_foreign hforeign cs
    rw [List.cons_append, List.infix_cons_iff, List.cons_append, List.nil_append, hdot]
  | other hc hforeign =>
    rw [List.cons_append, List.infix_cons_iff,
      h.infix_foreign (fun e he => hforeign e (.tail _ he)) cs]

/-- A lowered text holds the word exactly if it does with its ASCII letters lowered. -/
theorem infix_lowered {word cs lowered : List Char} (h : Plain word)
    (hlowers : Lowers cs lowered) : word <:+: lowered ↔ word <:+: cs.map Char.toLower := by
  obtain ⟨images, himages, rfl⟩ := hlowers
  cases word with
  | nil => simp
  | cons a word =>
    induction himages with
    | nil => rfl
    | @cons c image cs images himage hrest ih =>
      have hstart := h.prefix_lowered (.cons himage hrest)
      rw [List.flatten_cons] at hstart ⊢
      rw [h.infix_image himage, hstart, ih]
      exact List.infix_cons_iff.symm

end Plain

end TypedPhp.Text
