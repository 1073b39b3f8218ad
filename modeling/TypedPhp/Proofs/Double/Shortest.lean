import Mathlib.Algebra.Order.Field.Power
import Mathlib.Data.Nat.Cast.Order.Field
import Mathlib.Tactic.NormNum
import Mathlib.Tactic.Positivity
import Mathlib.Tactic.Ring
import TypedPhp.Proofs.Double.Nearest
import TypedPhp.Proofs.Read.Values

set_option autoImplicit false

/-!
# The shortest decimal reads back

`Double.shortest` tries ever finer grids. A point that it takes on a grid lies between the points
half-way to the neighbours of the number (`Double.onGrid_between`), and on the grid of seventeen
digits it always finds one (`Double.onGrid_isSome`), because two steps of this grid are less than
the distance between the neighbours. So it never falls back on the exact digits of the number, and
the decimal rounds to the number (`Double.shortest_roundsTo`).
-/

namespace TypedPhp

namespace Double

variable {m : Nat} {step : Int}

/-! ## One grid -/

/-- The last point of a grid up to the number of magnitude `m`. -/
def gridBelow (m : Nat) (step : Int) : Nat :=
  units m * 10 ^ (-step).toNat / (10 ^ step.toNat * unitsPerOne)

/-- A power of ten times the part of it below one is the part of it from one on. -/
theorem zpow_mul_pow_toNat (step : Int) :
    (10 : ℚ) ^ step * 10 ^ (-step).toNat = 10 ^ step.toNat := by
  have hsum : step + ((-step).toNat : Int) = step.toNat := by omega
  rw [← zpow_natCast, ← zpow_natCast, ← zpow_add₀ (by norm_num), hsum]

/-- Numbers of units and points of a grid are compared as whole numbers, which are their values
times a common factor. -/
theorem exists_common (step : Int) : ∃ d : ℚ, 0 < d ∧
    (∀ a : Nat, ((a * 10 ^ (-step).toNat : Nat) : ℚ) = a / unitsPerOne * d) ∧
    ∀ b : Nat, ((b * (10 ^ step.toNat * unitsPerOne) : Nat) : ℚ) = b * 10 ^ step * d := by
  have hone : (0 : ℚ) < unitsPerOne := Nat.cast_pos.2 unitsPerOne_pos
  refine ⟨10 ^ (-step).toNat * unitsPerOne, by positivity, fun a => ?_, fun b => ?_⟩
  · rw [Nat.cast_mul, Nat.cast_pow, Nat.cast_ofNat, mul_comm ((10 : ℚ) ^ _), ← mul_assoc,
      div_mul_cancel₀ _ hone.ne']
  · rw [Nat.cast_mul, Nat.cast_mul, Nat.cast_pow, Nat.cast_ofNat, ← zpow_mul_pow_toNat]
    ring

/-- The number lies between two points of the grid. -/
theorem gridBelow_le_value (m : Nat) (step : Int) :
    gridBelow m step * (10 : ℚ) ^ step ≤ value m ∧
      value m < (gridBelow m step + 1) * (10 : ℚ) ^ step := by
  obtain ⟨d, hd, hunits, hpoint⟩ := exists_common step
  have hden : 0 < 10 ^ step.toNat * unitsPerOne :=
    Nat.mul_pos (Nat.pow_pos (by decide)) unitsPerOne_pos
  constructor
  · have hle : ((gridBelow m step * (10 ^ step.toNat * unitsPerOne) : Nat) : ℚ) ≤
        (units m * 10 ^ (-step).toNat : Nat) := Nat.cast_le.2 (Nat.div_mul_le_self _ _)
    rw [hunits, hpoint] at hle
    exact le_of_mul_le_mul_right hle hd
  · have hlt : ((units m * 10 ^ (-step).toNat : Nat) : ℚ) <
        ((gridBelow m step + 1) * (10 ^ step.toNat * unitsPerOne) : Nat) := by
      rw [Nat.cast_lt, Nat.succ_mul]
      exact Nat.lt_div_mul_add hden
    rw [hunits, hpoint, Nat.cast_succ] at hlt
    exact lt_of_mul_lt_mul_right hlt hd.le

/-- A test of an end of the interval in whole numbers. -/
theorem fits_iff {a b : ℚ} {x y : Nat} {d : ℚ} (hd : 0 < d) (hx : (x : ℚ) = a * d)
    (hy : (y : ℚ) = b * d) : (if m % 2 = 0 then x ≤ y else x < y) ↔ Fits m a b := by
  have hle : x ≤ y ↔ a ≤ b := by
    have hcast : (x : ℚ) ≤ y ↔ x ≤ y := Nat.cast_le
    rw [← hcast, hx, hy]
    exact mul_le_mul_iff_left₀ hd
  have hlt : x < y ↔ a < b := by
    have hcast : (x : ℚ) < y ↔ x < y := Nat.cast_lt
    rw [← hcast, hx, hy]
    exact mul_lt_mul_iff_left₀ hd
  split
  · rename_i heven
    exact hle.trans ⟨fun h => ⟨h, fun _ => heven⟩, fun h => h.1⟩
  · rename_i hodd
    exact hlt.trans ⟨fun h => ⟨h.le, fun heq => absurd heq h.ne⟩,
      fun h => lt_of_le_of_ne h.1 fun heq => hodd (h.2 heq)⟩

/-- What a grid gives: the point below the number or the one above it, if that is on the inner
side of the half-way point, and nothing only if neither is. -/
theorem onGrid_outcome (m : Nat) (step : Int) :
    (onGrid m step = some (gridBelow m step) ∧
        Fits m (value (m - 1) + value m) (2 * (gridBelow m step * 10 ^ step))) ∨
      (onGrid m step = some (gridBelow m step + 1) ∧
        Fits m (2 * ((gridBelow m step + 1 : Nat) * 10 ^ step)) (value m + value (m + 1))) ∨
      (onGrid m step = none ∧
        ¬ Fits m (value (m - 1) + value m) (2 * (gridBelow m step * 10 ^ step)) ∧
        ¬ Fits m (2 * ((gridBelow m step + 1 : Nat) * 10 ^ step)) (value m + value (m + 1))) := by
  obtain ⟨d, hd, hunits, hpoint⟩ := exists_common step
  have hsum : ∀ i j, (((units i + units j) * 10 ^ (-step).toNat : Nat) : ℚ) =
      (value i + value j) * d := by
    intro i j
    rw [hunits, value, value, Nat.cast_add, add_div]
  have htwice : ∀ b : Nat, ((2 * (b * (10 ^ step.toNat * unitsPerOne)) : Nat) : ℚ) =
      2 * (b * 10 ^ step) * d := by
    intro b
    rw [Nat.cast_mul, hpoint, Nat.cast_ofNat, mul_assoc 2]
  rw [← fits_iff hd (hsum (m - 1) m) (htwice (gridBelow m step)),
    ← fits_iff hd (htwice (gridBelow m step + 1)) (hsum m (m + 1))]
  -- Which of the two points is nearer plays no part in what they satisfy.
  have hcases : ∀ (L U near : Prop) [Decidable L] [Decidable U] [Decidable near] (b : Nat),
      let r := if L ∧ (near ∨ ¬ U) then some b else if U then some (b + 1) else none
      r = some b ∧ L ∨ r = some (b + 1) ∧ U ∨ r = none ∧ ¬ L ∧ ¬ U := by
    intro L U near _ _ _ b
    by_cases hL : L <;> by_cases hU : U <;> by_cases hn : near <;> simp [hL, hU, hn]
  exact hcases _ _ _ _

/-- A point taken on a grid lies between the half-way points. -/
theorem onGrid_between {c : Nat} (hm : 0 < m) (h : onGrid m step = some c) :
    Between m (c * 10 ^ step) := by
  obtain ⟨hbelow, habove⟩ := gridBelow_le_value m step
  have hprev : value (m - 1) < value m := value_strictMono (by omega)
  have hnext : value m < value (m + 1) := value_strictMono (Nat.lt_succ_self m)
  rcases onGrid_outcome m step with ⟨heq, hfits⟩ | ⟨heq, hfits⟩ | ⟨heq, -⟩
  · obtain rfl := Option.some.inj (heq.symm.trans h)
    exact ⟨hfits, .of_lt (by linarith)⟩
  · obtain rfl := Option.some.inj (heq.symm.trans h)
    refine ⟨.of_lt ?_, hfits⟩
    rw [Nat.cast_succ]
    linarith
  · cases heq.symm.trans h

/-- A grid of seventeen digits has a point to take. If neither of the points around the number
were one, the distance of the neighbours of the number would be two steps of the grid at most. -/
theorem onGrid_isSome (hm : 0 < m) (hfine : (10 : ℚ) ^ 16 * 10 ^ step ≤ value m) :
    ∃ c, onGrid m step = some c := by
  rcases onGrid_outcome m step with ⟨heq, -⟩ | ⟨heq, -⟩ | ⟨-, hlower, hupper⟩
  · exact ⟨_, heq⟩
  · exact ⟨_, heq⟩
  · have hlow := not_lt.1 fun hlt => hlower (.of_lt hlt)
    have hhigh := not_lt.1 fun hlt => hupper (.of_lt hlt)
    have hspacing := value_lt_spacing hm
    rw [Nat.cast_succ] at hhigh
    have hnarrow : value (m + 1) - value (m - 1) ≤ 2 * 10 ^ step := by linarith
    linarith

/-! ## The grids in turn -/

/-- The number of zeros after the point is found if it is within reach. -/
theorem unitsPerOne_le_leadingZeros {u : Nat} : ∀ steps k,
    unitsPerOne ≤ u * 10 ^ (k + steps) → unitsPerOne ≤ u * 10 ^ leadingZeros u steps k
  | 0, _, h => h
  | steps + 1, k, h => by
      rw [leadingZeros]
      split
      · assumption
      · exact unitsPerOne_le_leadingZeros steps (k + 1) (by rwa [Nat.succ_add_eq_add_succ])

/-- A positive number has no fewer digits before the point than `decimalPoint` says. -/
theorem zpow_decimalPoint_le {u : Nat} (hu : 0 < u) :
    (10 : ℚ) ^ (decimalPoint u - 1) ≤ u / unitsPerOne := by
  have hone : (0 : ℚ) < unitsPerOne := Nat.cast_pos.2 unitsPerOne_pos
  unfold decimalPoint
  split
  -- With a whole part, its digits are counted; without one, the zeros after the point are.
  · rename_i hge
    have hwhole : 0 < u / unitsPerOne := Nat.div_pos hge unitsPerOne_pos
    obtain ⟨k, hk⟩ := Nat.exists_eq_add_one.2
      (Nat.length_toDigits_pos (b := 10) (n := u / unitsPerOne))
    have hdigits : 10 ^ k ≤ u / unitsPerOne := by
      rcases Nat.eq_zero_or_pos k with rfl | hkpos
      · exact hwhole
      · refine Nat.le_of_not_lt fun hlt => ?_
        have hle := (Nat.length_toDigits_le_iff (by decide) hkpos).2 hlt
        omega
    rw [hk, Nat.cast_succ, add_sub_cancel_right, zpow_natCast]
    refine le_trans ?_ Nat.cast_div_le
    rw [← Nat.cast_ofNat, ← Nat.cast_pow]
    exact Nat.cast_le.2 hdigits
  · have hreach : unitsPerOne ≤ u * 10 ^ (0 + 330) :=
      Nat.le_trans (by decide +kernel) (Nat.le_mul_of_pos_left _ hu)
    have hle : (unitsPerOne : ℚ) ≤ (u * 10 ^ leadingZeros u 330 0 : Nat) :=
      Nat.cast_le.2 (unitsPerOne_le_leadingZeros 330 0 hreach)
    rw [Nat.cast_mul, Nat.cast_pow, Nat.cast_ofNat] at hle
    have hpoint : 1 - (leadingZeros u 330 0 : Int) - 1 = -(leadingZeros u 330 0 : Int) := by omega
    rw [hpoint, zpow_neg, zpow_natCast, le_div_iff₀ hone, inv_mul_le_iff₀ (by positivity),
      mul_comm]
    exact hle

/-- The grids are tried until one has a point to take. -/
theorem firstGrid_eq_ofNat {point : Int} {tries n : Nat}
    (h : ∃ i < tries, ∃ c, onGrid m (point - (n + i : Nat)) = some c) :
    ∃ c step, onGrid m step = some c ∧ firstGrid m point tries n = Scientific.ofNat c step := by
  induction tries generalizing n with
  | zero =>
      obtain ⟨i, hi, -⟩ := h
      exact absurd hi (Nat.not_lt_zero i)
  | succ tries ih =>
      obtain ⟨i, hi, c, hc⟩ := h
      rw [firstGrid]
      split
      · rename_i c' hc'
        exact ⟨c', _, hc', rfl⟩
      · rename_i hnone
        cases i with
        | zero => cases hnone.symm.trans hc
        | succ i =>
            refine ih ⟨i, Nat.lt_of_succ_lt_succ hi, c, ?_⟩
            rw [Nat.succ_add_eq_add_succ]
            exact hc

/-- The shortest decimal lies between the half-way points. -/
theorem shortest_between (hm : 0 < m) : Between m (shortest m).value := by
  have hfine : (10 : ℚ) ^ 16 * 10 ^ (decimalPoint (units m) - (1 + 16 : Nat)) ≤ value m := by
    have hstep : (16 : Int) + (decimalPoint (units m) - (1 + 16 : Nat)) =
        decimalPoint (units m) - 1 := by omega
    rw [← zpow_ofNat, ← zpow_add₀ (by norm_num), hstep]
    exact zpow_decimalPoint_le (units_pos hm)
  obtain ⟨c, hc⟩ := onGrid_isSome hm hfine
  obtain ⟨c', step, hgrid, heq⟩ := firstGrid_eq_ofNat ⟨16, show 16 < 17 by decide, c, hc⟩
  rw [shortest, heq, Scientific.value_ofNat]
  exact onGrid_between hm hgrid

/-- The shortest decimal of a number rounds to the number. -/
theorem shortest_roundsTo (hm : 0 < m) (hle : m ≤ infiniteMagnitude) :
    RoundsTo (shortest m).value m :=
  (shortest_between hm).roundsTo hm hle

end Double

end TypedPhp
