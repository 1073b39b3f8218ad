import TypedPhp.Proofs.Runs.Basic
import TypedPhp.Random.Repeated
import TypedPhp.Random.Sampling

set_option autoImplicit false

/-!
# Outcomes of sampling

What each way of sampling gives from every source of words. A uniform draw stays in its range,
and faults only on an empty range; a draw with a chance faults only if the chance is none; a
weighted draw finds a place of positive weight; a loop that waits for a suitable sample ends in
one or is out of attempts.
-/

namespace TypedPhp.Draw

variable {ρ α : Type} {E : Fault → Prop}

/-! ## Repeated sampling -/

/-- A loop that waits for a suitable sample ends in one. -/
theorem suchThat_gives {suitable : α → Bool} {sample : Draw ρ α} {P : α → Prop}
    (hs : Gives E sample P) (hE : E .outOfAttempts) :
    ∀ attempts, Gives E (suchThat suitable sample attempts) fun a => suitable a = true ∧ P a
  | 0 => Gives.throw hE
  | attempts + 1 => by
      rw [suchThat]
      refine hs.bind fun a ha => ?_
      apply Gives.ite
      · intro hsuit
        exact Gives.pure ⟨hsuit, ha⟩
      · intro _
        exact suchThat_gives hs hE attempts

/-- A loop that collects distinct samples collects as many as were wanted. -/
theorem distinctFrom_gives {eqv : α → α → Bool} {sample : Draw ρ α} {P : α → Prop}
    (hs : Gives E sample P) (hE : E .outOfAttempts) :
    ∀ attempts wanted kept, (∀ a ∈ kept, P a) →
      Gives E (distinctFrom eqv sample attempts wanted kept) fun as =>
        as.length = wanted + kept.length ∧ ∀ a ∈ as, P a
  -- The length is counted with what is kept already, so the recursion needs no subtraction.
  | attempts, 0, kept, hk => by
      rw [distinctFrom]
      apply Gives.pure
      refine ⟨by simp, ?_⟩
      intro a ha
      exact hk a (List.mem_reverse.1 ha)
  | 0, wanted + 1, kept, _ => Gives.throw hE
  | attempts + 1, wanted + 1, kept, hk => by
      rw [distinctFrom]
      refine hs.bind fun a ha => ?_
      apply Gives.ite
      · intro _
        exact distinctFrom_gives hs hE attempts (wanted + 1) kept hk
      · intro _
        have hk' : ∀ b ∈ a :: kept, P b := by
          intro b hb
          rcases List.mem_cons.1 hb with rfl | hb
          · exact ha
          · exact hk b hb
        refine (distinctFrom_gives hs hE attempts wanted (a :: kept) hk').mono fun as has => ?_
        obtain ⟨hlen, hall⟩ := has
        refine ⟨?_, hall⟩
        rw [hlen, List.length_cons]
        omega

/-- Distinct samples are as many as were wanted, each of them as one sample gives it. -/
theorem distinct_gives {eqv : α → α → Bool} {sample : Draw ρ α} {P : α → Prop}
    (hs : Gives E sample P) (hE : E .outOfAttempts) (attempts n : Nat) :
    Gives E (distinct eqv attempts n sample) fun as => as.length = n ∧ ∀ a ∈ as, P a :=
  distinctFrom_gives hs hE attempts n [] (by simp)

section Words

variable [WordSource ρ]

/-! ## Uniform numbers -/

/-- A word is below the number of its values. -/
theorem word_gives (wide : Bool) : Gives E (word wide : Draw ρ Nat) (· < wordValues wide) := by
  constructor
  intro s
  cases wide with
  | false => exact Runs.ok rfl (UInt32.toNat_lt _)
  | true => exact Runs.ok rfl (UInt64.toNat_lt _)

theorem high_lt {size w n : Nat} (hw : w < size) (hn : 0 < n) : w * n / size < n := by
  rw [Nat.div_lt_iff_lt_mul (Nat.zero_lt_of_lt hw), Nat.mul_comm n size]
  exact Nat.mul_lt_mul_of_pos_right hw hn

/-- Where the low half leaves the answer in doubt, the high half has room for a carry. -/
theorem high_succ_lt {size w n : Nat} (hw : w < size) (hn : 0 < n)
    (hlow : size - n < w * n % size) : w * n / size + 1 < n := by
  have hhigh := high_lt hw hn
  have hsplit : size * (w * n / size) + w * n % size = w * n := Nat.div_add_mod (w * n) size
  have hbound : (w + 1) * n ≤ size * n := Nat.mul_le_mul_right n hw
  rw [Nat.add_mul, Nat.one_mul] at hbound
  -- With a high half of `n - 1`, the low half that leaves a doubt would take the product past
  -- `(size - 1) * n`, the most that a word can give.
  by_contra hle
  have heq : w * n / size = n - 1 := by omega
  rw [heq, Nat.mul_sub, Nat.mul_one] at hsplit
  have hsize : size ≤ size * n := Nat.le_mul_of_pos_right size hn
  omega

/-- A uniform number below `n` is below `n`. -/
theorem below_gives (wide : Bool) {n : Nat} (hn : 0 < n) :
    Gives E (below wide n : Draw ρ Nat) (· < n) := by
  unfold below
  refine (word_gives wide).bind fun w hw => ?_
  apply Gives.ite
  -- Only in doubt a second word is drawn, and its carry is added to the high half.
  · intro hlow
    refine (word_gives wide).bind fun w' _ => ?_
    apply Gives.pure
    split
    · exact high_succ_lt hw hn hlow
    · exact high_lt hw hn
  · intro _
    exact Gives.pure (high_lt hw hn)

/-- A uniform whole number lies in its range. -/
theorem int_gives (wide : Bool) {lo hi : Int} (h : lo ≤ hi) :
    Gives E (int wide lo hi : Draw ρ Int) fun k => lo ≤ k ∧ k ≤ hi := by
  unfold int
  apply Gives.ite
  · intro hlt
    omega
  · intro _
    refine (below_gives wide (by omega)).bind fun k hk => ?_
    apply Gives.pure
    omega

/-- A uniform count lies in its range; an empty range is a fault. -/
theorem range_gives {lo hi : Nat} (h : hi < lo → E .emptyRange) :
    Gives E (range lo hi : Draw ρ Nat) fun n => lo ≤ n ∧ n ≤ hi := by
  unfold range
  apply Gives.ite
  · intro hlt
    exact Gives.throw (h hlt)
  · intro _
    refine (below_gives _ (by omega)).bind fun k hk => ?_
    apply Gives.pure
    omega

/-- A uniform place lies in the list. -/
theorem place_gives {length : Nat} (h : length = 0 → E .emptyRange) :
    Gives E (place length : Draw ρ Nat) (· < length) := by
  cases length with
  | zero => exact Gives.throw (h rfl)
  | succ n =>
      refine (range_gives fun hlt => absurd hlt (Nat.not_lt_zero n)).mono fun k hk => ?_
      omega

theorem elemAt_eq_ok {xs : List α} {i : Nat} (h : i < xs.length) : elemAt xs i = .ok xs[i] := by
  simp [elemAt, h]

theorem pick_gives {pool : List α} (h : pool = [] → E .emptyRange) :
    Gives E (pick pool : Draw ρ α) (· ∈ pool) := by
  unfold pick
  refine (place_gives fun h0 => h (List.eq_nil_of_length_eq_zero h0)).bind fun i hi => ?_
  exact Gives.lift (elemAt_eq_ok hi) (List.getElem_mem hi)

/-! ## Chances -/

/-- A draw with a chance faults only if the chance is none. -/
theorem chance_gives {p : Double} (h : p.isProbability = false → E (.notAProbability p)) :
    Gives E (chance p : Draw ρ Bool) fun _ => True := by
  unfold chance
  apply Gives.ite
  · intro _
    exact Gives.pure trivial
  · intro _
    apply Gives.ite
    · intro _
      exact (word_gives true).bind fun w _ => Gives.pure trivial
    · intro hp
      exact Gives.throw (h (by simpa using hp))

/-! ## Weighted choices -/

/-- A number below the total of the weights falls on a place of positive weight. -/
theorem placeOfWeight_spec :
    ∀ {weights : List Nat} {c : Nat}, c < weights.foldr (· + ·) 0 →
      ∃ w, weights[placeOfWeight c weights]? = some w ∧ 0 < w
  | [], c, h => absurd h (Nat.not_lt_zero c)
  | w :: ws, c, h => by
      by_cases hc : c < w
      · exact ⟨w, by simp [placeOfWeight, hc], by omega⟩
      · have hrest : c - w < ws.foldr (· + ·) 0 := by
          simp only [List.foldr_cons] at h
          omega
        obtain ⟨v, hv, hpos⟩ := placeOfWeight_spec hrest
        exact ⟨v, by simp [placeOfWeight, hc, hv], hpos⟩

/-- A number drawn by rejection is below the total. -/
theorem belowByRejection_gives (wide : Bool) {total : Nat} (htotal : 0 < total)
    (hE : E .outOfAttempts) :
    ∀ attempts, Gives E (belowByRejection wide total attempts : Draw ρ Nat) (· < total)
  | 0 => Gives.throw hE
  | attempts + 1 => by
      rw [belowByRejection]
      refine (word_gives wide).bind fun w hw => ?_
      apply Gives.ite
      · intro _
        exact Gives.pure (high_lt hw htotal)
      · intro _
        exact belowByRejection_gives wide htotal hE attempts

/-- A weighted choice falls on a place of positive weight, if on any. -/
theorem weighted_gives (attempts : Nat) (weights : List Nat) (hE : E .outOfAttempts) :
    Gives E (weighted attempts weights : Draw ρ (Option Nat)) fun place =>
      ∀ i, place = some i → ∃ w, weights[i]? = some w ∧ 0 < w := by
  unfold weighted
  apply Gives.ite
  · intro _
    exact Gives.pure (by simp)
  · intro h
    have htotal : 0 < weights.foldr (· + ·) 0 := by
      by_contra h0
      exact h (Or.inl (by omega))
    refine (belowByRejection_gives _ htotal hE attempts).bind fun c hc => ?_
    apply Gives.pure
    intro i hi
    cases hi
    exact placeOfWeight_spec hc

end Words

end TypedPhp.Draw
