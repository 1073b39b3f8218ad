import Mathlib.Algebra.Order.Field.Rat
import Mathlib.Data.Rat.Cast.Defs
import Mathlib.Tactic.FieldSimp
import Mathlib.Tactic.NormNum
import Mathlib.Tactic.Ring
import TypedPhp.Proofs.Read.Scan

set_option autoImplicit false

/-!
# Values of numerals

`Read.numeralValue` is the exact value of the number that a text begins with. A decimal is laid out
in one of four ways, by the place of its point, and each has the value of the decimal
(`Scientific.numeralValue_format`); trailing zeros moved into the power of ten do not change it
(`Scientific.value_ofNat`).
-/

namespace TypedPhp

namespace Read

/-- The number that digits stand for. -/
def natValue (ds : List Char) : Nat := Nat.ofDigitChars 10 ds 0

/-- The number that an exponent stands for: its digits, with their sign. -/
def exponentValue (exp : List Char) : Int :=
  if (sign (exp.drop 1)).1 = ['-'] then -(natValue (sign (exp.drop 1)).2 : Int)
  else natValue (sign (exp.drop 1)).2

/-- The value of the number that a text begins with: the digits before the point, those after
it, and a power of ten. -/
def numeralValue (text : List Char) : ℚ :=
  let fraction := fraction (text.dropWhile Char.isDigit)
  let digits := fraction.1.drop 1
  let exponent := exponent fraction.2
  (natValue (text.takeWhile Char.isDigit) + natValue digits / 10 ^ digits.length) *
    10 ^ exponentValue exponent.1

theorem natValue_append (xs ys : List Char) :
    natValue (xs ++ ys) = natValue xs * 10 ^ ys.length + natValue ys := by
  rw [natValue, Nat.ofDigitChars_append, Nat.ofDigitChars_eq_ofDigitChars_zero, Nat.mul_comm]
  rfl

theorem natValue_zeros (n : Nat) : natValue (List.replicate n '0') = 0 := by
  rw [natValue, Nat.ofDigitChars_replicate_zero, Nat.mul_zero]

theorem natValue_zeros_append (n : Nat) (ds : List Char) :
    natValue (List.replicate n '0' ++ ds) = natValue ds := by
  rw [natValue_append, natValue_zeros, Nat.zero_mul, Nat.zero_add]

theorem natValue_append_zeros (ds : List Char) (n : Nat) :
    natValue (ds ++ List.replicate n '0') = natValue ds * 10 ^ n := by
  rw [natValue_append, natValue_zeros, List.length_replicate, Nat.add_zero]

/-- The value of a numeral: all its digits as one number, moved by the digits after the point
and by the exponent. -/
theorem numeralValue_of {whole frac exp : List Char} (hwhole : Digits whole)
    (hfrac : Fraction frac) (hexp : Exponent exp) :
    numeralValue (whole ++ (frac ++ exp)) =
      natValue (whole ++ frac.drop 1) * 10 ^ (exponentValue exp - (frac.drop 1).length) := by
  have hends : EndsNumber [] := fun _ hc => nomatch hc
  have hexpHead := hexp.head hends
  have hexponent := exponent_append hexp hends
  rw [List.append_nil] at hexpHead hexponent
  have hhead := hfrac.head fun c hc => (hexpHead c hc).1
  rw [numeralValue, takeWhile_run hwhole hhead, dropWhile_run hwhole hhead,
    fraction_append hfrac hexpHead]
  dsimp only
  rw [hexponent, natValue_append, zpow_sub₀ (by norm_num), zpow_natCast]
  push_cast
  field_simp

/-- The value of a numeral with a point and no exponent. -/
theorem numeralValue_point {whole ds : List Char} (hwhole : Digits whole) (hds : Digits ds) :
    numeralValue (whole ++ '.' :: ds) = natValue (whole ++ ds) * 10 ^ (-(ds.length : Int)) := by
  have h := numeralValue_of hwhole (.digits hds) .none
  rw [List.append_nil] at h
  refine h.trans ?_
  change (natValue (whole ++ ds) : ℚ) * 10 ^ (0 - (ds.length : Int)) = _
  rw [zero_sub]

/-- An integer is read back from the exponent that it is written in. -/
theorem exponentValue_toString (i : Int) : exponentValue ('e' :: (toString i).toList) = i := by
  have habs : natValue (Nat.toDigits 10 i.natAbs) = i.natAbs := Nat.ofDigitChars_ten_toDigits
  rw [exponentValue, List.drop_one, List.tail_cons, toString_int]
  split
  · change (if ['-'] = ['-'] then -(natValue (Nat.toDigits 10 i.natAbs) : Int) else _) = i
    rw [if_pos rfl, habs]
    omega
  · obtain ⟨d, ds, heq⟩ :=
      List.exists_cons_of_ne_nil (Nat.toDigits_ne_nil (n := i.natAbs) (b := 10))
    have hdigit : d.isDigit = true :=
      digits_toDigits i.natAbs d (by rw [heq]; exact List.mem_cons_self)
    rw [List.nil_append, heq, sign_of_digit hdigit, if_neg (fun h => nomatch h), ← heq, habs]
    omega

end Read

open Read

namespace Scientific

/-- The exact value of a decimal. -/
def value (s : Scientific) : ℚ := natValue s.digits * 10 ^ (s.point - s.digits.length)

/-- Moving trailing zeros into the power keeps the value. -/
theorem value_ofNat (n : Nat) (shift : Int) : (ofNat n shift).value = n * 10 ^ shift := by
  obtain ⟨k, hk⟩ : ∃ k, Nat.toDigits 10 n = (ofNat n shift).digits ++ List.replicate k '0' := by
    refine ⟨((Nat.toDigits 10 n).reverse.takeWhile (· = '0')).length, ?_⟩
    have hzeros : (Nat.toDigits 10 n).reverse.takeWhile (· = '0') = List.replicate
        ((Nat.toDigits 10 n).reverse.takeWhile (· = '0')).length '0' :=
      List.eq_replicate_of_mem fun c hc =>
        of_decide_eq_true (List.mem_takeWhile_imp (p := (· = '0')) hc)
    have hsplit := congrArg List.reverse
      (List.takeWhile_append_dropWhile (p := (· = '0')) (l := (Nat.toDigits 10 n).reverse))
    rw [List.reverse_append, List.reverse_reverse, hzeros, List.reverse_replicate] at hsplit
    exact hsplit.symm
  -- The digits that are left make the number up to a power of ten, which the point makes up for.
  have hvalue : n = natValue (ofNat n shift).digits * 10 ^ k := by
    have h := congrArg natValue hk
    rw [natValue_append_zeros] at h
    rw [← h]
    exact Nat.ofDigitChars_ten_toDigits.symm
  have hpoint : (ofNat n shift).point - (ofNat n shift).digits.length = shift + k := by
    have h := congrArg List.length hk
    rw [List.length_append, List.length_replicate] at h
    change shift + ((Nat.toDigits 10 n).length : Int) - (ofNat n shift).digits.length = _
    omega
  rw [value, hpoint, zpow_add₀ (by norm_num), zpow_natCast]
  conv_rhs => rw [hvalue]
  push_cast
  ring

variable {s : Scientific}

/-- Positional notation keeps the value. -/
theorem numeralValue_positional (hds : Digits s.digits) :
    numeralValue (s.positional true) = s.value := by
  unfold positional
  split
  · have hzeros := (digits_replicate (-s.point).toNat).append hds
    refine (numeralValue_point (digits_replicate 1) hzeros).trans ?_
    have hpoint : -((List.replicate (-s.point).toNat '0' ++ s.digits).length : Int) =
        s.point - s.digits.length := by
      rw [List.length_append, List.length_replicate]
      omega
    rw [natValue_zeros_append, natValue_zeros_append, hpoint, value]
  · dsimp only
    split
    · have htake : Digits (s.digits.take s.point.toNat) :=
        fun c hc => hds c (List.mem_of_mem_take hc)
      have hdrop : Digits (s.digits.drop s.point.toNat) :=
        fun c hc => hds c (List.mem_of_mem_drop hc)
      have hpoint : -((s.digits.drop s.point.toNat).length : Int) =
          s.point - s.digits.length := by
        rw [List.length_drop]
        omega
      rw [numeralValue_point htake hdrop, List.take_append_drop, hpoint, value]
    · -- The digit after the point is a zero too.
      have hzeros := hds.append (digits_replicate (s.point.toNat - s.digits.length))
      have hpoint : s.point - s.digits.length =
          ((s.point.toNat - s.digits.length : Nat) : Int) := by omega
      refine (numeralValue_point hzeros (digits_replicate 1)).trans ?_
      rw [natValue_append_zeros, natValue_append_zeros, value, hpoint, zpow_natCast]
      push_cast
      rw [List.length_singleton, Nat.cast_one, zpow_neg_one]
      ring

/-- Exponent notation keeps the value. -/
theorem numeralValue_exponential (hne : s.digits ≠ []) (hds : Digits s.digits) :
    numeralValue s.exponential = s.value := by
  have hexp := exponent_toString (s.point - 1)
  obtain ⟨d, ds, heq⟩ := List.exists_cons_of_ne_nil hne
  rw [exponential, value, heq]
  rw [heq] at hds
  have hd : Digits [d] := fun c hc => hds c (by rw [List.mem_singleton.1 hc]; simp)
  cases ds with
  | nil =>
      refine (numeralValue_of hd .none hexp).trans ?_
      rw [exponentValue_toString]
      change (natValue [d] : ℚ) * 10 ^ (s.point - 1 - 0) = _
      rw [sub_zero]
      rfl
  | cons e es =>
      have hfrac : Fraction ('.' :: e :: es) :=
        .digits fun c hc => hds c (List.mem_cons_of_mem d hc)
      refine (numeralValue_of hd hfrac hexp).trans ?_
      rw [exponentValue_toString]
      have hshift : s.point - 1 - ((e :: es).length : Int) =
          s.point - ((d :: e :: es).length : Int) := by
        rw [List.length_cons (a := d)]
        omega
      change (natValue (d :: e :: es) : ℚ) * 10 ^ (s.point - 1 - ((e :: es).length : Int)) = _
      rw [hshift]

/-- However a decimal is laid out, its text has its value. -/
theorem numeralValue_format (hne : s.digits ≠ []) (hds : Digits s.digits) :
    numeralValue (s.format .literal) = s.value := by
  unfold format
  split
  · exact numeralValue_positional hds
  · exact numeralValue_exponential hne hds

end Scientific

end TypedPhp
