import Mathlib.Algebra.Order.Field.Power
import Mathlib.Algebra.Order.Field.Rat
import Mathlib.Algebra.Order.Group.Abs
import Mathlib.Data.Rat.Cast.Order
import Mathlib.Order.Monotone.Basic
import Mathlib.Tactic.Linarith
import TypedPhp.Double.Basic

set_option autoImplicit false

/-!
# Rounding to the nearest number

`Double.value` is the exact value of a magnitude, and `Double.RoundsTo` says of a rational and a
magnitude that no magnitude is nearer, and that of two equally near ones the even one is taken. A
rational rounds to one magnitude only (`Double.RoundsTo.unique`), and it rounds to a magnitude if it
lies between the points half-way to the neighbours (`Double.Between.roundsTo`).

Consecutive magnitudes differ by `Double.ulp`, so the values increase. No number has more than 53
bits, so its neighbours are far enough from it for seventeen decimal digits to tell them apart
(`Double.units_lt_spacing`).
-/

namespace TypedPhp

namespace Double

/-! ## Values -/

/-- The distance from a magnitude to the next one, in units. -/
def ulp (m : Nat) : Nat := 2 ^ (m / 2 ^ 52 - 1)

theorem ulp_pos (m : Nat) : 0 < ulp m := Nat.two_pow_pos _

/-- A magnitude in two parts: which stretch of equally spaced numbers it is in, and where. -/
theorem units_split (q : Nat) {r : Nat} (hr : r < 2 ^ 52) :
    units (q * 2 ^ 52 + r) = if q = 0 then r else (2 ^ 52 + r) * 2 ^ (q - 1) := by
  have hmod : (q * 2 ^ 52 + r) % 2 ^ 52 = r := by omega
  have hdiv : (q * 2 ^ 52 + r) / 2 ^ 52 = q := by omega
  change (if q * 2 ^ 52 + r < 2 ^ 52 then _ else
    (2 ^ 52 + (q * 2 ^ 52 + r) % 2 ^ 52) * 2 ^ ((q * 2 ^ 52 + r) / 2 ^ 52 - 1)) = _
  rw [hmod, hdiv]
  rcases Nat.eq_zero_or_pos q with rfl | hq
  · rw [if_pos (by omega), if_pos rfl]
    omega
  · rw [if_neg (by omega), if_neg (by omega)]

theorem ulp_split (q : Nat) {r : Nat} (hr : r < 2 ^ 52) : ulp (q * 2 ^ 52 + r) = 2 ^ (q - 1) := by
  have hdiv : (q * 2 ^ 52 + r) / 2 ^ 52 = q := by omega
  rw [ulp, hdiv]

theorem exists_split (m : Nat) : ∃ q r, r < 2 ^ 52 ∧ m = q * 2 ^ 52 + r :=
  ⟨m / 2 ^ 52, m % 2 ^ 52, Nat.mod_lt _ (by decide), by omega⟩

/-- The next magnitude is one step further, from one stretch to the next too. -/
theorem units_succ (m : Nat) : units (m + 1) = units m + ulp m := by
  obtain ⟨q, r, hr, rfl⟩ := exists_split m
  rw [ulp_split q hr, units_split q hr]
  rcases Nat.lt_or_ge (r + 1) (2 ^ 52) with hsame | hnext
  · rw [Nat.add_assoc, units_split q hsame]
    rcases Nat.eq_zero_or_pos q with rfl | hq
    · rfl
    · rw [if_neg (by omega), if_neg (by omega), ← Nat.add_assoc, Nat.succ_mul]
  · -- The carry out of a stretch leads to the start of the next one.
    have hcarry : q * 2 ^ 52 + r + 1 = (q + 1) * 2 ^ 52 + 0 := by omega
    have hr' : r + 1 = 2 ^ 52 := by omega
    rw [hcarry, units_split (q + 1) (by decide), if_neg (Nat.succ_ne_zero q), Nat.add_sub_cancel]
    rcases Nat.eq_zero_or_pos q with rfl | hq
    · rw [if_pos rfl]
      omega
    · rw [if_neg (by omega), ← Nat.succ_mul, Nat.succ_eq_add_one, Nat.add_assoc, hr']
      obtain ⟨k, rfl⟩ := Nat.exists_eq_add_one.2 hq
      rw [Nat.add_sub_cancel, Nat.pow_succ]
      omega

theorem units_strictMono : StrictMono units :=
  strictMono_nat_of_lt_succ fun m => by
    rw [units_succ]
    exact Nat.lt_add_of_pos_right (ulp_pos m)

/-- Numbers have at most 53 bits: a number is less than `10 ^ 16` times half the distance
between its two neighbours. -/
theorem units_lt_spacing {m : Nat} (hm : 0 < m) :
    2 * units m < 10 ^ 16 * (units (m + 1) - units (m - 1)) := by
  obtain ⟨k, rfl⟩ := Nat.exists_eq_add_one.2 hm
  have hspacing : units (k + 1 + 1) - units k = ulp k + ulp (k + 1) := by
    rw [units_succ (k + 1), units_succ k]
    omega
  rw [Nat.add_sub_cancel, hspacing]
  obtain ⟨q, r, hr, hk⟩ := exists_split (k + 1)
  rw [hk, units_split q hr, ulp_split q hr]
  have hpow : 0 < 2 ^ (q - 1) := Nat.two_pow_pos _
  rcases Nat.eq_zero_or_pos r with rfl | hrpos
  · -- At the start of a stretch the spacing below is half the spacing above.
    split <;> omega
  · have hbelow : k = q * 2 ^ 52 + (r - 1) := by omega
    have hulp : ulp k = 2 ^ (q - 1) := by rw [hbelow, ulp_split q (by omega)]
    rw [hulp]
    split
    · rename_i hq
      rw [hq]
      omega
    · have hle : (2 ^ 52 + r) * 2 ^ (q - 1) ≤ 2 ^ 53 * 2 ^ (q - 1) :=
        Nat.mul_le_mul_right _ (by omega)
      omega

/-- The exact value of a magnitude. That of the infinities counts as `2 ^ 1024`, the value after
the greatest finite one. -/
def value (m : Nat) : ℚ := units m / unitsPerOne

theorem unitsPerOne_pos : 0 < unitsPerOne := by decide +kernel

theorem value_strictMono : StrictMono value := by
  intro m n h
  have hpos : (0 : ℚ) < unitsPerOne := Nat.cast_pos.2 unitsPerOne_pos
  exact div_lt_div_of_pos_right (Nat.cast_lt.2 (units_strictMono h)) hpos

/-- The distance of its neighbours bounds a value. -/
theorem value_lt_spacing {m : Nat} (hm : 0 < m) :
    2 * value m < 10 ^ 16 * (value (m + 1) - value (m - 1)) := by
  have hpos : (0 : ℚ) < unitsPerOne := Nat.cast_pos.2 unitsPerOne_pos
  have hle : units (m - 1) ≤ units (m + 1) := units_strictMono.monotone (by omega)
  have hunits : ((2 * units m : Nat) : ℚ) <
      (10 ^ 16 * (units (m + 1) - units (m - 1)) : Nat) := Nat.cast_lt.2 (units_lt_spacing hm)
  rw [Nat.cast_mul, Nat.cast_mul, Nat.cast_sub hle, Nat.cast_pow, Nat.cast_ofNat,
    Nat.cast_ofNat] at hunits
  rw [value, value, value, ← sub_div, ← mul_div_assoc, ← mul_div_assoc]
  exact div_lt_div_of_pos_right hunits hpos

/-! ## Rounding -/

/-- The value `v` rounds to the magnitude `m`: no magnitude is nearer, and of two equally near
ones the even one is taken. The magnitude of the infinities takes part with the value `2 ^ 1024`, so
that a value rounds to it from half-way after the greatest finite one. -/
structure RoundsTo (v : ℚ) (m : Nat) : Prop where
  bounded : m ≤ infiniteMagnitude
  nearest : ∀ k ≤ infiniteMagnitude, |v - value m| ≤ |v - value k|
  even : ∀ k ≤ infiniteMagnitude, k ≠ m → |v - value k| = |v - value m| → m % 2 = 0

variable {v : ℚ} {m n : Nat}

theorem abs_sub_le_of_add_le {a b v : ℚ} (hab : a ≤ b) (h : a + b ≤ 2 * v) :
    |v - b| ≤ |v - a| := by
  rw [abs_of_nonneg (show 0 ≤ v - a by linarith), abs_le]
  constructor <;> linarith

theorem abs_sub_le_of_le_add {a b v : ℚ} (hab : a ≤ b) (h : 2 * v ≤ a + b) :
    |v - a| ≤ |v - b| := by
  rw [abs_of_nonpos (show v - b ≤ 0 by linarith), abs_le]
  constructor <;> linarith

theorem add_eq_of_abs_eq {a b v : ℚ} (hab : a ≠ b) (h : |v - a| = |v - b|) : a + b = 2 * v := by
  rcases abs_eq_abs.1 h with heq | heq
  · exact absurd (by linarith) hab
  · linarith

/-- Two magnitudes that a value rounds to would be equally near, hence even, and a third one between
them would be nearer. -/
theorem RoundsTo.not_lt (hm : RoundsTo v m) (hn : RoundsTo v n) : ¬ m < n := by
  intro hlt
  have hdist : |v - value m| = |v - value n| :=
    le_antisymm (hm.nearest n hn.bounded) (hn.nearest m hm.bounded)
  have hmid := add_eq_of_abs_eq (value_strictMono hlt).ne hdist
  have hmeven := hm.even n hn.bounded hlt.ne' hdist.symm
  have hneven := hn.even m hm.bounded hlt.ne hdist
  have hbound := hn.bounded
  have hbetween := hm.nearest (m + 1) (by omega)
  have hlow : value m < value (m + 1) := value_strictMono (Nat.lt_succ_self m)
  have hhigh : value (m + 1) < value n := value_strictMono (by omega)
  rw [abs_of_nonneg (show 0 ≤ v - value m by linarith)] at hbetween
  rcases abs_cases (v - value (m + 1)) with ⟨habs, -⟩ | ⟨habs, -⟩ <;> linarith

/-- A value rounds to one magnitude only. -/
theorem RoundsTo.unique (hm : RoundsTo v m) (hn : RoundsTo v n) : m = n :=
  Nat.le_antisymm (Nat.le_of_not_lt (hn.not_lt hm)) (Nat.le_of_not_lt (hm.not_lt hn))

/-- The order of two ends of the interval of `m`, which belong to it if `m` is even. -/
def Fits (m : Nat) (a b : ℚ) : Prop := a ≤ b ∧ (a = b → m % 2 = 0)

theorem Fits.of_lt {a b : ℚ} (h : a < b) : Fits m a b :=
  ⟨h.le, fun heq => absurd heq h.ne⟩

/-- The twofold value lies between the half-way points to the two neighbours. -/
structure Between (m : Nat) (v : ℚ) : Prop where
  lower : Fits m (value (m - 1) + value m) (2 * v)
  upper : Fits m (2 * v) (value m + value (m + 1))

/-- What lies between the half-way points rounds to the magnitude. -/
theorem Between.roundsTo (h : Between m v) (hpos : 0 < m) (hm : m ≤ infiniteMagnitude) :
    RoundsTo v m := by
  have hbelow : ∀ k < m, value k ≤ value (m - 1) :=
    fun k hk => value_strictMono.monotone (by omega)
  have habove : ∀ k, m < k → value (m + 1) ≤ value k :=
    fun k hk => value_strictMono.monotone hk
  refine ⟨hm, fun k _ => ?_, fun k _ hne hdist => ?_⟩
  · rcases lt_trichotomy k m with hlt | rfl | hgt
    · have hlower := h.lower.1
      have hle := hbelow k hlt
      exact abs_sub_le_of_add_le (value_strictMono hlt).le (by linarith)
    · exact le_rfl
    · have hupper := h.upper.1
      have hle := habove k hgt
      exact abs_sub_le_of_le_add (value_strictMono hgt).le (by linarith)
  · -- An equally near magnitude is a neighbour, and the value is an end of the interval.
    have hmid := add_eq_of_abs_eq (value_strictMono.injective.ne hne) hdist
    rcases Nat.lt_or_gt_of_ne hne with hlt | hgt
    · have hle := hbelow k hlt
      exact h.lower.2 (le_antisymm h.lower.1 (by linarith))
    · have hle := habove k hgt
      exact h.upper.2 (le_antisymm h.upper.1 (by linarith))

/-- Zero rounds to zero. -/
theorem roundsTo_zero : RoundsTo 0 0 := by
  have hzero : value 0 = 0 := by
    have hunits : units 0 = 0 := rfl
    rw [value, hunits, Nat.cast_zero, zero_div]
  refine ⟨Nat.zero_le _, fun k _ => ?_, fun _ _ _ _ => rfl⟩
  rw [hzero, sub_zero, abs_zero]
  exact abs_nonneg _

end Double

end TypedPhp
