import TypedPhp.Proofs.Double.Shortest

set_option autoImplicit false

/-!
# Numbers survive printing

The text of a number as a literal is a word for a NaN or an infinity, and a numeral otherwise whose
exact value rounds to the number (`Double.format_reads_back`). The sign is printed apart, so the
zeros keep theirs. A value rounds to one number only, so different numbers have different texts.
-/

namespace TypedPhp

open Read

namespace Double

variable {m n : Nat} {x y : Double}

theorem magnitude_le (h : x.isNaN = false) : x.magnitude ≤ infiniteMagnitude :=
  Nat.le_of_not_lt (of_decide_eq_false h)

/-! ## Magnitudes as text -/

/-- The text of a finite magnitude rounds to the magnitude. -/
theorem formatMagnitude_roundsTo (hm : m < infiniteMagnitude) :
    RoundsTo (numeralValue (formatMagnitude .literal m)) m := by
  unfold formatMagnitude
  split
  · rename_i hzero
    have hdigits := digits_replicate 1
    have hvalue : numeralValue ['0', '.', '0'] = 0 := by
      refine (numeralValue_point hdigits hdigits).trans ?_
      rw [natValue_zeros_append, natValue_zeros, Nat.cast_zero, zero_mul]
    rw [hzero]
    change RoundsTo (numeralValue ['0', '.', '0']) 0
    rw [hvalue]
    exact roundsTo_zero
  · rename_i hzero
    have hpos := Nat.pos_of_ne_zero hzero
    obtain ⟨hne, hds⟩ := digits_firstGrid hpos (decimalPoint (units m)) 17 1
    have hvalue : numeralValue ((shortest m).format .literal) = (shortest m).value :=
      Scientific.numeralValue_format hne hds
    rw [if_neg hm.ne, hvalue]
    exact shortest_roundsTo hpos hm.le

/-- The text of a magnitude does not begin with a sign. -/
theorem head_formatMagnitude (m : Nat) : (formatMagnitude .literal m).head? ≠ some '-' := by
  by_cases hm : m = infiniteMagnitude
  · rw [hm, formatMagnitude_infinite]
    decide
  · obtain ⟨d, ds, heq, hd⟩ := (formatMagnitude_numeral hm).numeral.head
    rw [heq, List.head?_cons]
    rintro ⟨rfl⟩
    exact absurd hd (by decide)

/-- Two magnitudes that are not those of NaNs have different texts. -/
theorem formatMagnitude_injective (hm : m ≤ infiniteMagnitude) (hn : n ≤ infiniteMagnitude)
    (h : formatMagnitude .literal m = formatMagnitude .literal n) : m = n := by
  -- The word of the infinities is no numeral.
  have hword : ∀ k, formatMagnitude .literal k = "INF".toList → k = infiniteMagnitude := by
    intro k hk
    by_contra hne
    obtain ⟨d, ds, heq, hd⟩ := (formatMagnitude_numeral hne).numeral.head
    obtain ⟨rfl, -⟩ := List.cons.inj (hk.symm.trans heq)
    exact absurd hd (by decide)
  rcases Nat.lt_or_eq_of_le hm with hmlt | rfl
  · rcases Nat.lt_or_eq_of_le hn with hnlt | rfl
    · have hround := formatMagnitude_roundsTo hmlt
      rw [h] at hround
      exact hround.unique (formatMagnitude_roundsTo hnlt)
    · exact hword m (h.trans formatMagnitude_infinite)
  · exact (hword n (h.symm.trans formatMagnitude_infinite)).symm

/-! ## Numbers as text -/

theorem format_eq (h : x.isNaN = false) :
    format .literal x =
      (if x.isNegative then ['-'] else []) ++ formatMagnitude .literal x.magnitude := by
  rw [format, if_neg (by rw [h]; decide)]

/-- The sign of what is not a NaN is read off the first character. -/
theorem head_format_iff (h : x.isNaN = false) :
    (format .literal x).head? = some '-' ↔ x.isNegative = true := by
  rw [format_eq h]
  split
  · rename_i hneg
    exact iff_of_true rfl hneg
  · rename_i hpos
    exact iff_of_false (head_formatMagnitude _) hpos

/-- What is not a NaN is told apart by its text. -/
theorem format_injective (hx : x.isNaN = false) (hy : y.isNaN = false)
    (h : format .literal x = format .literal y) : x.bits = y.bits := by
  have hsign : x.isNegative = y.isNegative := by
    rw [Bool.eq_iff_iff, ← head_format_iff hx, ← head_format_iff hy, h]
  rw [format_eq hx, format_eq hy, hsign] at h
  exact bits_eq hsign
    (formatMagnitude_injective (magnitude_le hx) (magnitude_le hy) (List.append_cancel_left h))

/-- The text of an infinity is a word after its sign. -/
theorem format_infinite (h : x.isInfinite = true) :
    format .literal x = if x.isNegative then "-INF".toList else "INF".toList := by
  have hmag : x.magnitude = infiniteMagnitude := of_decide_eq_true h
  have hnan : x.isNaN = false := decide_eq_false (Nat.not_lt.2 hmag.le)
  rw [format_eq hnan, hmag, formatMagnitude_infinite]
  split <;> rfl

/-- The text of a finite number is a numeral after its sign, and no other number of this sign is
one that the value of the numeral rounds to. -/
theorem format_finite (h : x.isFinite = true) :
    ∃ unsigned, format .literal x = (if x.isNegative then '-' :: unsigned else unsigned) ∧
      FloatNumeral unsigned ∧ RoundsTo (numeralValue unsigned) x.magnitude ∧
      ∀ y : Double, y.isNegative = x.isNegative →
        RoundsTo (numeralValue unsigned) y.magnitude → y.bits = x.bits := by
  have hmag : x.magnitude < infiniteMagnitude := of_decide_eq_true h
  have hnan : x.isNaN = false := decide_eq_false (Nat.not_lt.2 hmag.le)
  have hround := formatMagnitude_roundsTo hmag
  refine ⟨_, ?_, formatMagnitude_numeral hmag.ne, hround, fun y hsign hy => ?_⟩
  · rw [format_eq hnan]
    split <;> rfl
  · exact bits_eq hsign (hy.unique hround)

/-- Numbers survive printing. Every NaN and each of the infinities is printed as its word. The
text of a finite number is an optional minus sign, there if the sign bit is set, and a numeral with
a point or an exponent, whose value rounds to the number and to no other bits of that sign. So two
numbers with the same text have the same bits, NaNs aside. -/
theorem format_reads_back (x : Double) :
    (x.isNaN = true → format .literal x = "NAN".toList) ∧
    (x.isInfinite = true →
      format .literal x = if x.isNegative then "-INF".toList else "INF".toList) ∧
    (x.isFinite = true → ∃ unsigned,
      format .literal x = (if x.isNegative then '-' :: unsigned else unsigned) ∧
      FloatNumeral unsigned ∧ RoundsTo (numeralValue unsigned) x.magnitude ∧
      ∀ y : Double, y.isNegative = x.isNegative →
        RoundsTo (numeralValue unsigned) y.magnitude → y.bits = x.bits) ∧
    ∀ y : Double, x.isNaN = false → y.isNaN = false →
      format .literal x = format .literal y → x.bits = y.bits :=
  ⟨fun hnan => by rw [format, if_pos hnan]; rfl, format_infinite, format_finite,
    fun _ hx hy h => format_injective hx hy h⟩

/-- The negative number nearest to zero has one digit, which rounds to no other number of its sign,
and the negative zero is not printed like the positive one. -/
theorem format_reads_back_least :
    (format .literal ⟨0x8000000000000001⟩ = "-5e-324".toList ∧
      RoundsTo (numeralValue "5e-324".toList) 1) ∧
    format .literal ⟨0x8000000000000000⟩ ≠ format .literal ⟨0⟩ := by
  have htext : format .literal ⟨0x8000000000000001⟩ = "-5e-324".toList := by decide +kernel
  refine ⟨⟨htext, ?_⟩, fun heq => ?_⟩
  · obtain ⟨-, -, hfinite, -⟩ := format_reads_back ⟨0x8000000000000001⟩
    obtain ⟨unsigned, hformat, -, hround, -⟩ := hfinite (by decide)
    have hunsigned : '-' :: unsigned = "-5e-324".toList := hformat.symm.trans htext
    obtain rfl : unsigned = "5e-324".toList := (List.cons.inj hunsigned).2
    exact hround
  · have hbits := (format_reads_back ⟨0x8000000000000000⟩).2.2.2 ⟨0⟩ (by decide) (by decide) heq
    exact absurd hbits (by decide)

end Double

end TypedPhp
