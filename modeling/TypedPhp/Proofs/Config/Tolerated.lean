import TypedPhp.Config.Basic
import TypedPhp.Generate.Env
import TypedPhp.Proofs.Runs.Sampling

set_option autoImplicit false

/-!
# What a configuration can make fail

The settings of a configuration reach the generator as ranges, chances and the bound of loop
iterations. A configuration is tolerated by a set of faults if the set holds every fault that one
of these settings leads to. A validated configuration is tolerated by every set, the empty one
included (`Config.tolerated_of_validate`), and every configuration is tolerated by the set of all
faults.
-/

namespace TypedPhp

variable {E : Fault → Prop} {c : Config}

/-- Every fault that a chance of the configuration leads to is in `E`. -/
def Config.ChancesIn (E : Fault → Prop) (c : Config) : Prop :=
  ∀ s ∈ c.chances, s.2.isProbability = false → E (.notAProbability s.2)

/-- Every fault that a setting of the configuration leads to is in `E`. -/
structure Config.Tolerated (E : Fault → Prop) (c : Config) : Prop where
  chances : c.ChancesIn E
  ranges : ∀ s ∈ c.ranges, s.2.max < s.2.min → E .emptyRange
  loopBound : c.maxLoopIterations < 1 → E .emptyRange

namespace Config

theorem tolerated_of_all (h : ∀ f, E f) : c.Tolerated E :=
  ⟨fun _ _ _ => h _, fun _ _ _ => h _, fun _ => h _⟩

/-- A validated configuration makes nothing fail. -/
theorem tolerated_of_validate (h : c.validate = .ok ()) : c.Tolerated E := by
  -- The three checks of the validation are the three parts of the statement: ranges, chances and
  -- the bound of loops. Each rules out the very condition under which the fault would be asked for.
  unfold validate at h
  split at h
  · cases h
  · rename_i hranges
    split at h
    · cases h
    · rename_i hchances
      split at h
      · rename_i hloop
        refine ⟨?_, ?_, ?_⟩
        · intro s hs hp
          have hgood := List.find?_eq_none.1 hchances s hs
          simp [hp] at hgood
        · intro s hs hlt
          have hgood := List.find?_eq_none.1 hranges s hs
          simp [hlt] at hgood
        · intro hlt
          omega
      · cases h

/-- A validated configuration bounds its loops by ten iterations. -/
theorem maxLoopIterations_le_of_validate (h : c.validate = .ok ()) : c.maxLoopIterations ≤ 10 := by
  unfold validate at h
  split at h
  · cases h
  · split at h
    · cases h
    · split at h
      · rename_i hloop
        exact hloop.2
      · cases h

theorem maxLoopIterations_lt_of_validate (h : c.validate = .ok ()) :
    c.maxLoopIterations < Nat.pow 2 63 :=
  Nat.lt_of_le_of_lt (maxLoopIterations_le_of_validate h) (by decide)

section Draws

variable {ρ : Type} [WordSource ρ]

theorem ChancesIn.chance_gives (h : c.ChancesIn E) (name : String) {p : Double}
    (hp : (name, p) ∈ c.chances) :
    Draw.Gives E (Draw.chance p : Draw ρ Bool) fun _ => True :=
  Draw.chance_gives fun hbad => h (name, p) hp hbad

theorem Tolerated.range_gives (h : c.Tolerated E) (name : String) {r : CountRange}
    (hr : (name, r) ∈ c.ranges) :
    Draw.Gives E (Draw.range r.min r.max : Draw ρ Nat) fun n => r.min ≤ n ∧ n ≤ r.max :=
  Draw.range_gives fun hbad => h.ranges (name, r) hr hbad

end Draws

end Config

/-! ## Fixed chances -/

theorem isProbability_percent : ∀ n ≤ 100, (percent n).isProbability = true := by
  decide +kernel

namespace Draw

variable {ρ : Type} [WordSource ρ]

/-- A chance in percent never faults. -/
theorem percent_gives {n : Nat} (h : n ≤ 100) :
    Gives E (chance (percent n) : Draw ρ Bool) fun _ => True := by
  apply chance_gives
  intro hbad
  rw [isProbability_percent n h] at hbad
  cases hbad

theorem half_gives : Gives E (chance half : Draw ρ Bool) fun _ => True := by
  apply chance_gives
  intro hbad
  cases hbad

end Draw

end TypedPhp
