import Mathlib.Algebra.GroupWithZero.Nat
import TypedPhp.Generate.Choice
import TypedPhp.Proofs.Runs.Sampling

set_option autoImplicit false

/-!
# Weighted lists by running totals

A weighted list expands its options into a table of slots, and a draw looks one slot up. The same
choice can be made without the table: it falls on the first option of which the running total of
the frequencies exceeds the number that was drawn. `ChoiceList.Expands` says that a table is laid
out that way, and every list that is built from at most 65536 options is: so many places can be told
apart by slots of 16 bits.
-/

namespace TypedPhp

namespace Draw

/-- The place at which a running total first exceeds a number below the sum: the total up to that
place exceeds it, and no earlier one does. -/
theorem placeOfWeight_first :
    ∀ {weights : List Nat} {c : Nat}, c < weights.sum →
      c < (weights.take (placeOfWeight c weights + 1)).sum ∧
        ∀ j < placeOfWeight c weights, (weights.take (j + 1)).sum ≤ c
  | [], c, h => absurd h (Nat.not_lt_zero c)
  | w :: ws, c, h => by
      by_cases hc : c < w
      · simp [placeOfWeight, hc]
      · have hrest : c - w < ws.sum := by
          rw [List.sum_cons] at h
          omega
        obtain ⟨habove, hbelow⟩ := placeOfWeight_first hrest
        rw [placeOfWeight, if_neg hc]
        -- Past the first weight, all totals are larger by it.
        refine ⟨?_, fun j hj => ?_⟩
        · rw [List.take_succ_cons, List.sum_cons]
          omega
        · rw [List.take_succ_cons, List.sum_cons]
          cases j with
          | zero => simpa using Nat.le_of_not_lt hc
          | succ j =>
              have hle := hbelow j (by omega)
              omega

end Draw

namespace ChoiceList

variable {κ : Type}

/-- The frequencies of options, as numbers. -/
def weights (options : List (Choice κ)) : List Nat := options.map (·.frequency.toNat)

/-- The running total of the frequencies of the first `n` options. -/
def runningTotal (options : List (Choice κ)) (n : Nat) : Nat := ((weights options).take n).sum

/-- The option at place `i` is the choice by running totals: its own total exceeds the slot, and
the total of no earlier option does. -/
structure ChosenAt (options : List (Choice κ)) (slot i : Nat) : Prop where
  above : slot < runningTotal options (i + 1)
  below : ∀ j < i, runningTotal options (j + 1) ≤ slot

/-- The choice is at one place only. -/
theorem ChosenAt.unique {options : List (Choice κ)} {slot i j : Nat}
    (hi : ChosenAt options slot i) (hj : ChosenAt options slot j) : i = j := by
  rcases Nat.lt_trichotomy i j with hlt | heq | hgt
  · exact absurd (hj.below i hlt) (Nat.not_le_of_lt hi.above)
  · exact heq
  · exact absurd (hi.below j hgt) (Nat.not_le_of_lt hj.above)

/-! ## The table of slots -/

/-- There are as many slots as the frequencies sum up to. -/
theorem length_slotsFrom (options : List (Choice κ)) :
    ∀ i, (slotsFrom i options).length = (weights options).sum := by
  induction options with
  | nil => exact fun _ => rfl
  | cons c cs ih =>
      intro i
      rw [slotsFrom, List.length_append, List.length_replicate, ih]
      rfl

/-- A slot holds the place at which the running total first exceeds it. -/
theorem getElem?_slotsFrom (options : List (Choice κ)) :
    ∀ {i slot : Nat}, slot < (weights options).sum →
      (slotsFrom i options)[slot]? =
        some (UInt16.ofNat (i + Draw.placeOfWeight slot (weights options))) := by
  -- The options after the first one are laid out from the next place on, hence any place `i`.
  induction options with
  | nil => exact fun h => absurd h (Nat.not_lt_zero _)
  | cons c cs ih =>
      intro i slot h
      have hweights : weights (c :: cs) = c.frequency.toNat :: weights cs := rfl
      rw [slotsFrom, hweights, Draw.placeOfWeight]
      by_cases hc : slot < c.frequency.toNat
      · rw [if_pos hc, List.getElem?_append_left (by simpa using hc), List.getElem?_replicate,
          if_pos hc, Nat.add_zero]
      · have hrest : slot - c.frequency.toNat < (weights cs).sum := by
          rw [hweights, List.sum_cons] at h
          omega
        rw [if_neg hc, List.getElem?_append_right (by simpa using hc), List.length_replicate,
          ih hrest, Nat.add_assoc, Nat.add_comm 1]

theorem toNat_place {i : Nat} (hi : i < 65536) : (UInt16.ofNat i).toNat = i :=
  UInt16.toNat_ofNat_of_lt hi

/-- As many slots refer to an option as its frequency says, and none to a place without one. -/
theorem countP_slotsFrom (options : List (Choice κ)) (p : Nat) :
    ∀ {i : Nat}, i + options.length ≤ 65536 →
      (slotsFrom i options).countP (·.toNat == p) =
        if i ≤ p then options[p - i]?.elim 0 (·.frequency.toNat) else 0 := by
  induction options with
  | nil => simp [slotsFrom]
  | cons c cs ih =>
      intro i hlen
      rw [List.length_cons] at hlen
      rw [slotsFrom, List.countP_append, List.countP_replicate, toNat_place (by omega),
        ih (by omega)]
      -- The place is that of the first option, comes after it, or comes before all of them.
      rcases Nat.lt_trichotomy i p with hlt | rfl | hgt
      · have hsplit : p - i = p - (i + 1) + 1 := by omega
        rw [if_neg (by simpa using Nat.ne_of_lt hlt), if_pos (Nat.succ_le_of_lt hlt),
          if_pos (Nat.le_of_lt hlt), hsplit, List.getElem?_cons_succ, Nat.zero_add]
      · rw [if_neg (Nat.not_succ_le_self i), Nat.sub_self, List.getElem?_cons_zero]
        simp
      · rw [if_neg (by simpa using Nat.ne_of_gt hgt), if_neg (by omega), if_neg (by omega)]

/-- A table that expands some options: it has as many slots as the frequencies sum up to, every
slot refers to an option, as many to each as its frequency says, and what a slot refers to is the
choice by running totals. -/
structure Expands (options : List (Choice κ)) (l : ChoiceList κ) : Prop where
  options_eq : l.options = options
  length : l.slots.length = (weights options).sum
  share : ∀ i c, options[i]? = some c → l.slots.countP (·.toNat == i) = c.frequency.toNat
  within : ∀ i ∈ l.slots, i.toNat < options.length
  chosen : ∀ slot < l.slots.length, ∃ i c, options[i]? = some c ∧ ChosenAt options slot i ∧
    c.frequency ≠ 0 ∧ l.atSlot slot = .ok c

/-- The option at the place where the running total first exceeds a slot has a frequency. -/
theorem exists_chosenAt {options : List (Choice κ)} {slot : Nat}
    (h : slot < (weights options).sum) :
    ∃ c, options[Draw.placeOfWeight slot (weights options)]? = some c ∧
      ChosenAt options slot (Draw.placeOfWeight slot (weights options)) ∧ c.frequency ≠ 0 := by
  have hfold : slot < (weights options).foldr (· + ·) 0 := by rwa [← List.sum_eq_foldr]
  obtain ⟨w, hw, hpos⟩ := Draw.placeOfWeight_spec hfold
  rw [weights, List.getElem?_map, Option.map_eq_some_iff] at hw
  obtain ⟨c, hc, rfl⟩ := hw
  obtain ⟨habove, hbelow⟩ := Draw.placeOfWeight_first h
  refine ⟨c, hc, ⟨habove, hbelow⟩, fun hzero => ?_⟩
  rw [hzero] at hpos
  exact absurd hpos (by decide)

/-- The table of a list of options expands them. -/
theorem expands_slotsFrom {options : List (Choice κ)} (hlen : options.length ≤ 65536) :
    Expands options ⟨options, slotsFrom 0 options⟩ where
  options_eq := rfl
  length := length_slotsFrom options 0
  share := by
    intro i c hc
    rw [countP_slotsFrom options i (by omega), if_pos (Nat.zero_le i), Nat.sub_zero, hc]
    rfl
  within := by
    intro p hp
    -- A place without an option has no slots.
    by_contra hout
    have hnone : options[p.toNat]? = none := List.getElem?_eq_none (Nat.le_of_not_lt hout)
    have hcount := countP_slotsFrom options p.toNat (i := 0) (by omega)
    rw [if_pos (Nat.zero_le _), Nat.sub_zero, hnone] at hcount
    have hnot := List.countP_eq_zero.1 hcount p hp
    exact hnot (beq_self_eq_true _)
  chosen := by
    intro slot hslot
    rw [length_slotsFrom] at hslot
    obtain ⟨c, hc, hchosen, hfreq⟩ := exists_chosenAt hslot
    refine ⟨_, c, hc, hchosen, hfreq, ?_⟩
    have hplace : Draw.placeOfWeight slot (weights options) < options.length :=
      (List.getElem?_eq_some_iff.1 hc).1
    have hget := getElem?_slotsFrom options (i := 0) hslot
    rw [Nat.zero_add] at hget
    have hslot : elemAt (slotsFrom 0 options) slot =
        .ok (UInt16.ofNat (Draw.placeOfWeight slot (weights options))) := by
      rw [elemAt, hget]
    have hoption : elemAt options
        (UInt16.ofNat (Draw.placeOfWeight slot (weights options))).toNat = .ok c := by
      rw [toNat_place (by omega), elemAt, hc]
    rw [atSlot, hslot]
    exact hoption

/-- Where some option has a frequency, the frequencies do not sum up to zero. -/
theorem sum_weights_pos {options : List (Choice κ)} (hfreq : ∃ c ∈ options, c.frequency ≠ 0) :
    0 < (weights options).sum := by
  obtain ⟨c, hc, hne⟩ := hfreq
  refine List.sum_pos_iff_exists_pos_nat.2 ⟨_, List.mem_map_of_mem hc, Nat.pos_of_ne_zero ?_⟩
  intro hzero
  exact hne (UInt16.toNat.inj hzero)

/-- A list of options that is not refused is expanded. -/
theorem ofOptions_expands {options : List (Choice κ)} {l : ChoiceList κ}
    (hlen : options.length ≤ 65536) (h : ofOptions options = .ok l) :
    l.slots ≠ [] ∧ Expands options l := by
  have hexpands := expands_slotsFrom hlen
  unfold ofOptions at h
  split at h
  · cases h
  · rename_i slot slots hslots
    cases h
    rw [hslots] at hexpands
    exact ⟨List.cons_ne_nil _ _, hexpands⟩

/-- A list of options some of which has a frequency is not refused. -/
theorem ofOptions_eq_ok {options : List (Choice κ)} (hfreq : ∃ c ∈ options, c.frequency ≠ 0) :
    ∃ l, ofOptions options = .ok l := by
  unfold ofOptions
  split
  · rename_i hnil
    have hpos := sum_weights_pos hfreq
    rw [← length_slotsFrom options 0, hnil] at hpos
    exact absurd hpos (Nat.not_lt_zero 0)
  · exact ⟨_, rfl⟩

/-! ## A draw -/

/-- A draw from an expanded list is a uniform draw of a slot and the option of that slot. -/
theorem Expands.draw_eq_ok {options : List (Choice κ)} {l : ChoiceList κ} (h : Expands options l)
    (hne : l.slots ≠ []) {ρ : Type} [WordSource ρ] (s : ρ) :
    ∃ slot s', (Draw.place (weights options).sum : Draw ρ Nat) s = .ok (slot, s') ∧
      slot < (weights options).sum ∧
      ∃ c, l.atSlot slot = .ok c ∧ (l.draw : Draw ρ (Choice κ)) s = .ok (c, s') := by
  have hplace : Draw.Gives (fun _ => False) (Draw.place l.slots.length : Draw ρ Nat)
      (· < l.slots.length) :=
    Draw.place_gives fun h0 => hne (List.eq_nil_of_length_eq_zero h0)
  rw [← h.length]
  cases hrun : (Draw.place l.slots.length : Draw ρ Nat) s with
  | error f => exact ((hplace.runs s).of_error hrun).elim
  | ok r =>
      obtain ⟨slot, s'⟩ := r
      have hslot : slot < l.slots.length := (hplace.runs s).of_ok hrun
      obtain ⟨i, c, -, -, -, hc⟩ := h.chosen slot hslot
      refine ⟨slot, s', rfl, hslot, c, hc, ?_⟩
      refine (Runs.bind_of_ok hrun).trans ?_
      rw [hc]
      rfl

/-- The table makes the same choice as running totals: for at most 65536 options, some of which
has a frequency, a table is built that expands them, and a draw from it takes one uniform number
below the sum of the frequencies and gives the option that this slot refers to. -/
theorem choice_by_runningTotal {options : List (Choice κ)} (hlen : options.length ≤ 65536)
    (hfreq : ∃ c ∈ options, c.frequency ≠ 0) :
    ∃ l, ofOptions options = .ok l ∧ Expands options l ∧
      ∀ {ρ : Type} [WordSource ρ] (s : ρ),
        ∃ slot s', (Draw.place (weights options).sum : Draw ρ Nat) s = .ok (slot, s') ∧
          slot < (weights options).sum ∧
          ∃ c, l.atSlot slot = .ok c ∧ (l.draw : Draw ρ (Choice κ)) s = .ok (c, s') := by
  obtain ⟨l, hl⟩ := ofOptions_eq_ok hfreq
  obtain ⟨hne, hexpands⟩ := ofOptions_expands hlen hl
  exact ⟨l, hl, hexpands, fun s => hexpands.draw_eq_ok hne s⟩

/-- Options without a frequency at both ends and side by side, and the greatest frequency: two slots
refer to the second option, and the next slot to the fifth. -/
theorem choice_by_runningTotal_zeros :
    let options : List (Choice Nat) :=
      [⟨0, 0, none⟩, ⟨2, 1, none⟩, ⟨0, 2, none⟩, ⟨0, 3, none⟩, ⟨65535, 4, none⟩, ⟨0, 5, none⟩]
    ∃ l, ofOptions options = .ok l ∧ l.slots.length = 65537 ∧
      l.atSlot 1 = .ok ⟨2, 1, none⟩ ∧ l.atSlot 2 = .ok ⟨65535, 4, none⟩ := by
  intro options
  have hfreq : ∃ c ∈ options, c.frequency ≠ 0 :=
    ⟨⟨2, 1, none⟩, List.mem_cons_of_mem _ List.mem_cons_self, by decide⟩
  have hlen : options.length ≤ 65536 := by decide
  obtain ⟨l, hl, hexpands, -⟩ := choice_by_runningTotal hlen hfreq
  have hlength : l.slots.length = 65537 := hexpands.length
  refine ⟨l, hl, hlength, ?_, ?_⟩
  · obtain ⟨i, c, hc, hchosen, -, hslot⟩ := hexpands.chosen 1 (by omega)
    obtain rfl : i = 1 := hchosen.unique ⟨by decide, by decide⟩
    cases hc
    exact hslot
  · obtain ⟨i, c, hc, hchosen, -, hslot⟩ := hexpands.chosen 2 (by omega)
    obtain rfl : i = 4 := hchosen.unique ⟨by decide, by decide⟩
    cases hc
    exact hslot

end ChoiceList

end TypedPhp
