import Mathlib.Data.List.TakeWhile
import TypedPhp.Double.Text

set_option autoImplicit false

/-!
# Reading words and numbers

A reader of source text takes the longest word or number from the start of a text. An identifier is
read back whole if no character of an identifier follows it (`Read.label?_append`), and so is every
unsigned number that is printed, if what follows cannot go on with it (`Read.number_append`). The
text of a float has a point or an exponent, so it is never taken for a whole number.
-/

namespace TypedPhp

namespace Read

/-! ## Runs of characters -/

section Runs

variable {p : Char → Bool} {run rest : List Char}

/-- A run of characters of a kind is taken whole if what follows is of another kind. -/
theorem takeWhile_run (hrun : ∀ c ∈ run, p c = true) (hrest : ∀ c ∈ rest.head?, p c = false) :
    (run ++ rest).takeWhile p = run := by
  rw [List.takeWhile_append_of_pos hrun]
  cases rest with
  | nil => rw [List.takeWhile_nil, List.append_nil]
  | cons c rest =>
      rw [List.takeWhile_cons_of_neg (by rw [hrest c rfl]; decide), List.append_nil]

/-- What follows a run of characters of a kind is left. -/
theorem dropWhile_run (hrun : ∀ c ∈ run, p c = true) (hrest : ∀ c ∈ rest.head?, p c = false) :
    (run ++ rest).dropWhile p = rest := by
  rw [List.dropWhile_append_of_pos hrun]
  cases rest with
  | nil => rfl
  | cons c rest => rw [List.dropWhile_cons_of_neg (by rw [hrest c rfl]; decide)]

end Runs

/-! ## Words -/

/-- A character that an identifier can begin with. -/
def identStart (c : Char) : Bool := c.isAlpha || c == '_' || 0x80 ≤ c.toNat

/-- A character of an identifier. -/
def identChar (c : Char) : Bool := identStart c || c.isDigit

/-- No identifier begins with a digit. -/
theorem identStart_of_isDigit {c : Char} (h : c.isDigit = true) : identStart c = false := by
  have hmem : c ∈ "0123456789".toList := by
    have hall : ∀ n < 10, Char.ofNat (48 + n) ∈ "0123456789".toList := by decide
    rw [Char.isDigit, Bool.and_eq_true] at h
    have hlow : 48 ≤ c.toNat := UInt32.le_iff_toNat_le.1 (of_decide_eq_true h.1)
    have hhigh : c.toNat ≤ 57 := UInt32.le_iff_toNat_le.1 (of_decide_eq_true h.2)
    have hc := hall (c.toNat - 48) (by omega)
    rw [Nat.add_sub_cancel' hlow, Char.ofNat_toNat] at hc
    exact hc
  have hdigits : "0123456789".toList.all (fun c => !identStart c) = true := by decide
  simpa using List.all_eq_true.1 hdigits c hmem

/-- Whether a name is an identifier. -/
def isIdentifier (s : String) : Bool :=
  match s.toList with
  | [] => false
  | c :: rest => identStart c && rest.all identChar

/-- The longest identifier at the start of a text, and what is left. -/
def label? : List Char → Option (String × List Char)
  | [] => none
  | c :: rest =>
    if identStart c then
      some (String.ofList (c :: rest.takeWhile identChar), rest.dropWhile identChar)
    else none

/-- What is left after an identifier is shorter. -/
theorem length_of_label? {text rest : List Char} {s : String} (h : label? text = some (s, rest)) :
    rest.length < text.length := by
  cases text with
  | nil => cases h
  | cons c text =>
      rw [label?] at h
      split at h
      · obtain ⟨-, rfl⟩ := Prod.mk.inj (Option.some.inj h)
        exact Nat.lt_succ_of_le (List.length_dropWhile_le _ _)
      · cases h

/-- The characters of an identifier. -/
theorem exists_of_isIdentifier {s : String} (h : isIdentifier s = true) :
    ∃ c rest, s.toList = c :: rest ∧ identStart c = true ∧ ∀ d ∈ rest, identChar d = true := by
  unfold isIdentifier at h
  split at h
  · cases h
  · rename_i c rest heq
    obtain ⟨hstart, hrest⟩ := Bool.and_eq_true_iff.1 h
    exact ⟨c, rest, heq, hstart, List.all_eq_true.1 hrest⟩

/-- An identifier is read back whole. -/
theorem label?_append {s : String} {rest : List Char} (h : isIdentifier s = true)
    (hrest : ∀ c ∈ rest.head?, identChar c = false) :
    label? (s.toList ++ rest) = some (s, rest) := by
  obtain ⟨c, tail, heq, hstart, htail⟩ := exists_of_isIdentifier h
  rw [heq, List.cons_append, label?, if_pos hstart, takeWhile_run htail hrest,
    dropWhile_run htail hrest, ← heq, String.ofList_toList]

/-! ## Numbers -/

/-- A point and the digits after it, if a text begins with them. -/
def fraction : List Char → List Char × List Char
  | '.' :: rest => ('.' :: rest.takeWhile Char.isDigit, rest.dropWhile Char.isDigit)
  | rest => ([], rest)

/-- A sign, if a text begins with one. -/
def sign : List Char → List Char × List Char
  | '-' :: rest => (['-'], rest)
  | '+' :: rest => (['+'], rest)
  | rest => ([], rest)

/-- An exponent with at least one digit, if a text begins with one. -/
def exponent : List Char → List Char × List Char
  | [] => ([], [])
  | c :: rest =>
    if (c = 'e' ∨ c = 'E') ∧ (sign rest).2.head?.any Char.isDigit then
      (c :: ((sign rest).1 ++ (sign rest).2.takeWhile Char.isDigit),
        (sign rest).2.dropWhile Char.isDigit)
    else ([], c :: rest)

/-- The longest number at the start of a text, and what is left. -/
def number (text : List Char) : List Char × List Char :=
  let fraction := fraction (text.dropWhile Char.isDigit)
  let exponent := exponent fraction.2
  (text.takeWhile Char.isDigit ++ (fraction.1 ++ exponent.1), exponent.2)

/-! ## Numerals -/

/-- All characters of a text are digits. -/
def Digits (text : List Char) : Prop := ∀ c ∈ text, c.isDigit = true

/-- No fraction, or a point and digits. -/
inductive Fraction : List Char → Prop where
  | none : Fraction []
  | digits {ds : List Char} : Digits ds → Fraction ('.' :: ds)

/-- No exponent, or one of at least one digit, possibly negative. -/
inductive Exponent : List Char → Prop where
  | none : Exponent []
  | positive {d : Char} {ds : List Char} : Digits (d :: ds) → Exponent ('e' :: d :: ds)
  | negative {d : Char} {ds : List Char} : Digits (d :: ds) → Exponent ('e' :: '-' :: d :: ds)

/-- A numeral: a whole number, possibly with a fraction and an exponent. -/
inductive Numeral : List Char → Prop where
  | of {whole frac exp : List Char} : whole ≠ [] → Digits whole → Fraction frac → Exponent exp →
      Numeral (whole ++ (frac ++ exp))

/-- What follows a numeral cannot go on with it. -/
def EndsNumber (rest : List Char) : Prop :=
  ∀ c ∈ rest.head?, c.isDigit = false ∧ c ≠ '.' ∧ c ≠ 'e' ∧ c ≠ 'E'

variable {rest : List Char}

theorem EndsNumber.digit (h : EndsNumber rest) : ∀ c ∈ rest.head?, c.isDigit = false :=
  fun c hc => (h c hc).1

/-- Where no exponent follows, none is read. -/
theorem exponent_of_ends (h : EndsNumber rest) : exponent rest = ([], rest) := by
  cases rest with
  | nil => rfl
  | cons c rest =>
      obtain ⟨-, -, he, hE⟩ := h c rfl
      rw [exponent, if_neg]
      rintro ⟨hc | hc, -⟩
      · exact he hc
      · exact hE hc

/-- A sign is read before a digit only if there is one. -/
theorem sign_of_digit {d : Char} {ds : List Char} (h : d.isDigit = true) :
    sign (d :: ds) = ([], d :: ds) := by
  have hminus : d ≠ '-' := by
    rintro rfl
    exact absurd h (by decide)
  have hplus : d ≠ '+' := by
    rintro rfl
    exact absurd h (by decide)
  rw [sign]
  · exact fun _ heq => hminus (List.cons.inj heq).1
  · exact fun _ heq => hplus (List.cons.inj heq).1

/-- An exponent is read whole. -/
theorem exponent_append {exp : List Char} (h : Exponent exp) (hrest : EndsNumber rest) :
    exponent (exp ++ rest) = (exp, rest) := by
  cases h with
  | none => exact exponent_of_ends hrest
  | @positive d ds hds =>
      have hsign : sign (d :: ds ++ rest) = ([], d :: ds ++ rest) :=
        sign_of_digit (hds d List.mem_cons_self)
      have hdigit : (sign (d :: ds ++ rest)).2.head?.any Char.isDigit = true := by
        rw [hsign]
        exact hds d List.mem_cons_self
      change exponent ('e' :: (d :: ds ++ rest)) = _
      rw [exponent, if_pos ⟨Or.inl rfl, hdigit⟩, hsign, takeWhile_run hds hrest.digit,
        dropWhile_run hds hrest.digit]
      rfl
  | @negative d ds hds =>
      have hdigit : (sign ('-' :: (d :: ds ++ rest))).2.head?.any Char.isDigit = true :=
        hds d List.mem_cons_self
      change exponent ('e' :: '-' :: (d :: ds ++ rest)) = _
      rw [exponent, if_pos ⟨Or.inl rfl, hdigit⟩]
      change ('e' :: (['-'] ++ (d :: ds ++ rest).takeWhile Char.isDigit),
        (d :: ds ++ rest).dropWhile Char.isDigit) = _
      rw [takeWhile_run hds hrest.digit, dropWhile_run hds hrest.digit]
      rfl

/-- An exponent and what follows it begin with no digit and no point. -/
theorem Exponent.head {exp : List Char} (h : Exponent exp) (hrest : EndsNumber rest) :
    ∀ c ∈ (exp ++ rest).head?, c.isDigit = false ∧ c ≠ '.' := by
  intro c hc
  cases h with
  | none => exact ⟨(hrest c hc).1, (hrest c hc).2.1⟩
  | positive _ | negative _ =>
      obtain rfl := Option.some.inj hc
      decide

/-- A fraction is read whole. -/
theorem fraction_append {frac : List Char} (h : Fraction frac)
    (hrest : ∀ c ∈ rest.head?, c.isDigit = false ∧ c ≠ '.') :
    fraction (frac ++ rest) = (frac, rest) := by
  cases h with
  | none =>
      change fraction rest = _
      rw [fraction]
      rintro tail rfl
      exact (hrest '.' rfl).2 rfl
  | @digits ds hds =>
      change ('.' :: (ds ++ rest).takeWhile Char.isDigit, (ds ++ rest).dropWhile Char.isDigit) = _
      rw [takeWhile_run hds fun c hc => (hrest c hc).1,
        dropWhile_run hds fun c hc => (hrest c hc).1]

/-- A fraction and what follows it begin with no digit. -/
theorem Fraction.head {frac : List Char} (h : Fraction frac)
    (hrest : ∀ c ∈ rest.head?, c.isDigit = false) :
    ∀ c ∈ (frac ++ rest).head?, c.isDigit = false := by
  intro c hc
  cases h with
  | none => exact hrest c hc
  | digits _ =>
      obtain rfl := Option.some.inj hc
      decide

/-- What is left after a number is shorter. -/
theorem length_number {d : Char} (hd : d.isDigit = true ∨ d = '.') (text : List Char) :
    (number (d :: text)).2.length < (d :: text).length := by
  have hsign : ∀ text, (sign text).2.length ≤ text.length := by
    intro text
    unfold sign
    split
    · exact Nat.le_succ _
    · exact Nat.le_succ _
    · exact Nat.le_refl _
  have hexponent : ∀ text, (exponent text).2.length ≤ text.length := by
    intro text
    unfold exponent
    split
    · exact Nat.le_refl _
    · rename_i c rest
      split
      · exact Nat.le_succ_of_le (Nat.le_trans (List.length_dropWhile_le _ _) (hsign rest))
      · exact Nat.le_refl _
  have hfraction : ∀ text, (fraction text).2.length ≤ text.length := by
    intro text
    unfold fraction
    split
    · exact Nat.le_succ_of_le (List.length_dropWhile_le _ _)
    · exact Nat.le_refl _
  -- The first character belongs to the digits or is the point of the fraction.
  have hle : (fraction ((d :: text).dropWhile Char.isDigit)).2.length ≤ text.length := by
    rcases hd with hd | rfl
    · rw [List.dropWhile_cons_of_pos hd]
      exact Nat.le_trans (hfraction _) (List.length_dropWhile_le _ _)
    · exact List.length_dropWhile_le _ _
  exact Nat.lt_succ_of_le (Nat.le_trans (hexponent _) hle)

/-- A numeral is read back whole. -/
theorem number_append {x : List Char} (h : Numeral x) (hrest : EndsNumber rest) :
    number (x ++ rest) = (x, rest) := by
  obtain @⟨whole, frac, exp, -, hwhole, hfrac, hexp⟩ := h
  have hhead := hfrac.head fun c hc => (hexp.head hrest c hc).1
  have hassoc : whole ++ (frac ++ exp) ++ rest = whole ++ (frac ++ (exp ++ rest)) := by
    rw [List.append_assoc, List.append_assoc]
  rw [number, hassoc, takeWhile_run hwhole hhead, dropWhile_run hwhole hhead,
    fraction_append hfrac (hexp.head hrest)]
  dsimp only
  rw [exponent_append hexp hrest]

theorem Numeral.head {x : List Char} (h : Numeral x) :
    ∃ d tail, x = d :: tail ∧ d.isDigit = true := by
  obtain @⟨whole, frac, exp, hne, hwhole, -, -⟩ := h
  obtain ⟨d, ds, rfl⟩ := List.exists_cons_of_ne_nil hne
  exact ⟨d, ds ++ (frac ++ exp), rfl, hwhole d List.mem_cons_self⟩

/-! ## Whole numbers -/

theorem digits_toDigits (n : Nat) : Digits (Nat.toDigits 10 n) :=
  fun _ hc => Nat.isDigit_of_mem_toDigits (by decide) (by decide) hc

theorem Numeral.digits {ds : List Char} (hne : ds ≠ []) (hds : Digits ds) : Numeral ds := by
  have h := Numeral.of hne hds .none .none
  rw [List.append_nil, List.append_nil] at h
  exact h

theorem numeral_toDigits (n : Nat) : Numeral (Nat.toDigits 10 n) :=
  .digits Nat.toDigits_ne_nil (digits_toDigits n)

/-- The text of an integer: its sign and the digits of its absolute value. -/
theorem toString_int (i : Int) :
    (toString i).toList = (if i < 0 then ['-'] else []) ++ Nat.toDigits 10 i.natAbs := by
  cases i with
  | ofNat n =>
      have hneg : ¬ Int.ofNat n < 0 := by simp
      rw [if_neg hneg]
      exact Nat.toList_repr
  | negSucc n =>
      rw [if_pos (Int.negSucc_lt_zero n)]
      change ("-" ++ n.succ.repr).toList = _
      rw [String.toList_append, Nat.toList_repr]
      rfl

/-- The text of an integer after the letter of an exponent. -/
theorem exponent_toString (i : Int) : Exponent ('e' :: (toString i).toList) := by
  obtain ⟨d, ds, heq⟩ :=
    List.exists_cons_of_ne_nil (Nat.toDigits_ne_nil (n := i.natAbs) (b := 10))
  have hdigits := digits_toDigits i.natAbs
  rw [toString_int, heq] at *
  split
  · exact .negative hdigits
  · exact .positive hdigits

/-! ## Floats -/

/-- A text is a numeral, and not one of digits only. -/
structure FloatNumeral (x : List Char) : Prop where
  numeral : Numeral x
  notWhole : ¬ Digits x

/-- A numeral with a point is one of a float. -/
theorem FloatNumeral.point {whole frac : List Char} (hne : whole ≠ []) (hwhole : Digits whole)
    (hfrac : Digits frac) : FloatNumeral (whole ++ '.' :: frac) := by
  constructor
  · have h := Numeral.of hne hwhole (.digits hfrac) .none
    rw [List.append_nil] at h
    exact h
  · intro h
    exact absurd (h '.' (List.mem_append_right _ List.mem_cons_self)) (by decide)

/-- A numeral with an exponent is one of a float. -/
theorem FloatNumeral.exponent {whole frac exp : List Char} (hne : whole ≠ [])
    (hwhole : Digits whole) (hfrac : Fraction frac) (hexp : Exponent ('e' :: exp)) :
    FloatNumeral (whole ++ (frac ++ 'e' :: exp)) := by
  constructor
  · exact .of hne hwhole hfrac hexp
  · intro h
    have hmem : 'e' ∈ whole ++ (frac ++ 'e' :: exp) := by simp
    exact absurd (h 'e' hmem) (by decide)

theorem digits_replicate (n : Nat) : Digits (List.replicate n '0') := by
  intro c hc
  rw [List.eq_of_mem_replicate hc]
  decide

theorem Digits.append {xs ys : List Char} (hx : Digits xs) (hy : Digits ys) :
    Digits (xs ++ ys) := by
  intro c hc
  rcases List.mem_append.1 hc with hc | hc
  · exact hx c hc
  · exact hy c hc

end Read

open Read

/-! ## Decimals -/

namespace Scientific

variable {s : Scientific}

/-- A decimal with at least one digit is written as a numeral of a float. -/
theorem format_numeral (hne : s.digits ≠ []) (hds : Digits s.digits) :
    FloatNumeral (s.format .literal) := by
  have htake : ∀ n, Digits (s.digits.take n) := fun n c hc => hds c (List.mem_of_mem_take hc)
  have hdrop : ∀ n, Digits (s.digits.drop n) := fun n c hc => hds c (List.mem_of_mem_drop hc)
  have hzero : Digits ['0'] := digits_replicate 1
  unfold format
  split
  · unfold positional
    split
    · exact .point (List.cons_ne_nil '0' []) hzero ((digits_replicate _).append hds)
    · rename_i hpoint
      dsimp only
      split
      · refine .point ?_ (htake _) (hdrop _)
        intro hnil
        rcases List.take_eq_nil_iff.1 hnil with h | h
        · omega
        · exact hne h
      · refine .point ?_ (hds.append (digits_replicate _)) hzero
        exact List.append_ne_nil_of_left_ne_nil hne _
  · -- One digit stands before the point.
    have hexp := exponent_toString (s.point - 1)
    unfold exponential
    obtain ⟨d, ds, heq⟩ := List.exists_cons_of_ne_nil hne
    rw [heq] at hds ⊢
    have hd : Digits [d] := fun c hc => hds c (by rw [List.mem_singleton.1 hc]; simp)
    cases ds with
    | nil => exact .exponent (by simp) hd .none hexp
    | cons e es =>
        have hfrac : Fraction ('.' :: e :: es) :=
          .digits fun c hc => hds c (List.mem_cons_of_mem d hc)
        exact .exponent (by simp) hd hfrac hexp

/-- The digits of a positive number, trailing zeros aside. -/
theorem digits_ofNat {n : Nat} (hn : 0 < n) (shift : Int) :
    (ofNat n shift).digits ≠ [] ∧ Digits (ofNat n shift).digits := by
  constructor
  · intro hnil
    have hzeros : ∀ c ∈ Nat.toDigits 10 n, c = '0' := by
      have hdrop : (Nat.toDigits 10 n).reverse.dropWhile (· = '0') = [] :=
        List.reverse_eq_nil_iff.1 hnil
      intro c hc
      have hall := List.dropWhile_eq_nil_iff.1 hdrop c (List.mem_reverse.2 hc)
      exact of_decide_eq_true hall
    -- If all digits were zeros, so would the number be.
    have hvalue : Nat.ofDigitChars 10 (Nat.toDigits 10 n) 0 = 0 := by
      rw [List.eq_replicate_of_mem hzeros]
      induction (Nat.toDigits 10 n).length with
      | zero => rfl
      | succ k ih =>
          rw [List.replicate_succ, Nat.ofDigitChars_cons]
          exact ih
    rw [Nat.ofDigitChars_ten_toDigits] at hvalue
    omega
  · intro c hc
    apply digits_toDigits n
    rw [← List.mem_reverse]
    exact (List.dropWhile_sublist _).subset (List.mem_reverse.1 hc)

end Scientific

namespace Double

/-- A positive magnitude stands for a positive number. -/
theorem units_pos {m : Nat} (hm : 0 < m) : 0 < units m := by
  unfold units
  split
  · exact hm
  · exact Nat.mul_pos (Nat.add_pos_left (Nat.pow_pos (by decide)) _) (Nat.pow_pos (by decide))

/-- A point of a grid that reads back as a positive number is positive. -/
theorem onGrid_pos {m c : Nat} {step : Int} (hm : 0 < m) (h : onGrid m step = some c) : 0 < c := by
  -- The interval of what reads back as the number begins above zero.
  have hlow : 0 < (units (m - 1) + units m) * Nat.pow 10 (-step).toNat :=
    Nat.mul_pos (Nat.add_pos_right _ (units_pos hm)) (Nat.pow_pos (by decide))
  have hpos : ∀ below den : Nat,
      (units (m - 1) + units m) * Nat.pow 10 (-step).toNat ≤ 2 * (below * den) → 0 < below := by
    intro below den hle
    refine Nat.pos_of_ne_zero fun hzero => ?_
    rw [hzero, Nat.zero_mul, Nat.mul_zero] at hle
    omega
  have hcases : ∀ (A B : Prop) [Decidable A] [Decidable B] (x : Nat),
      (if A then some x else if B then some (x + 1) else none) = some c →
        A ∧ x = c ∨ x + 1 = c := by
    intro A B _ _ x heq
    split at heq
    · rename_i hA
      exact Or.inl ⟨hA, Option.some.inj heq⟩
    · split at heq
      · exact Or.inr (Option.some.inj heq)
      · cases heq
  rcases hcases _ _ _ h with ⟨hfits, rfl⟩ | rfl
  · have hlower := hfits.1
    split at hlower
    · exact hpos _ _ hlower
    · exact hpos _ _ (Nat.le_of_lt hlower)
  · exact Nat.succ_pos _

/-- The first grid with a point for a positive number gives it at least one digit. -/
theorem digits_firstGrid {m : Nat} (hm : 0 < m) (point : Int) : ∀ tries n,
    (firstGrid m point tries n).digits ≠ [] ∧ Digits (firstGrid m point tries n).digits
  | 0, n => Scientific.digits_ofNat (units_pos hm) _
  | tries + 1, n => by
      rw [firstGrid]
      split
      · rename_i c hc
        exact Scientific.digits_ofNat (onGrid_pos hm hc) _
      · exact digits_firstGrid hm point tries (n + 1)

theorem formatMagnitude_infinite : formatMagnitude .literal infiniteMagnitude = "INF".toList := by
  rw [formatMagnitude, if_neg (by decide), if_pos rfl]
  rfl

/-- A finite magnitude is written as a numeral of a float. -/
theorem formatMagnitude_numeral {m : Nat} (hm : m ≠ infiniteMagnitude) :
    FloatNumeral (formatMagnitude .literal m) := by
  unfold formatMagnitude
  split
  · exact .point (List.cons_ne_nil '0' []) (digits_replicate 1) (digits_replicate 1)
  · rename_i hzero
    obtain ⟨hne, hds⟩ := digits_firstGrid (Nat.pos_of_ne_zero hzero) (decimalPoint (units m)) 17 1
    exact Scientific.format_numeral hne hds

end Double

end TypedPhp
