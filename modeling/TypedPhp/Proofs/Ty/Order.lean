import Mathlib.Order.Basic
import TypedPhp.Ty.Order

set_option autoImplicit false

/-!
# The order of types is total

`Ty.compare` is oriented and transitive, and it finds two types equal exactly if they are
identical (`Ty.compare_swap`, `Ty.compare_chained`, `Ty.compare_eq_iff`). The three facts are
proved for names, literals and enums first. Transitivity is stated for three orderings at once
(`Chained`), which is what a lexicographic combination keeps.
-/

namespace TypedPhp

/-! ## Transitivity of three orderings -/

/-- The orderings of `x` with `y`, of `y` with `z` and of `x` with `z` agree with transitivity:
if neither of the first two descends, the third is their lexicographic combination. -/
def Chained (a b c : Ordering) : Prop := a.isLE → b.isLE → c = a.then b

namespace Chained

variable {α : Type} {a b c a' b' c' : Ordering}

/-- A transitive comparison. -/
theorem of_transOrd [Ord α] [Std.TransOrd α] (x y z : α) :
    Chained (compare x y) (compare y z) (compare x z) := by
  intro hxy hyz
  cases hab : compare x y with
  | gt =>
      rw [hab] at hxy
      exact absurd hxy (by decide)
  | lt => exact Std.TransCmp.lt_of_lt_of_isLE hab hyz
  | eq =>
      rw [Std.TransCmp.congr_left hab]
      rfl

/-- A lexicographic combination, where the second keys count only for equal first keys. -/
theorem andThen (h : Chained a b c) (h' : a = .eq → b = .eq → Chained a' b' c') :
    Chained (a.then a') (b.then b') (c.then c') := by
  intro ha hb
  cases a with
  | gt => exact absurd ha (by simp)
  | lt =>
      have hble : b.isLE := by
        cases b with
        | gt => exact absurd hb (by simp)
        | lt => rfl
        | eq => rfl
      rw [h rfl hble]
      rfl
  | eq =>
      cases b with
      | gt => exact absurd hb (by simp)
      | lt =>
          rw [h rfl rfl]
          cases a' with
          | gt => exact absurd ha (by simp)
          | lt => rfl
          | eq => rfl
      | eq =>
          rw [h rfl rfl]
          exact h' rfl rfl ha hb

/-- A comparison that looks at a rank first. -/
theorem of_rank {cmp : α → α → Ordering} (rank : α → Nat)
    (hrank : ∀ x y, rank x ≠ rank y → cmp x y = compare (rank x) (rank y)) {x y z : α}
    (hsame : rank x = rank y → rank y = rank z → Chained (cmp x y) (cmp y z) (cmp x z)) :
    Chained (cmp x y) (cmp y z) (cmp x z) := by
  -- If all ranks agree the comparison itself decides, else the first two that differ do.
  by_cases hxy : rank x = rank y
  · by_cases hyz : rank y = rank z
    · exact hsame hxy hyz
    · rw [hrank y z hyz, hrank x z (by omega), hxy]
      intro ha hb
      have hne : compare (rank y) (rank z) ≠ .eq := fun h => hyz (Nat.compare_eq_eq.1 h)
      cases hcmp : compare (rank y) (rank z) with
      | gt =>
          rw [hcmp] at hb
          exact absurd hb (by decide)
      | eq => exact absurd hcmp hne
      | lt =>
          cases hab : cmp x y with
          | gt =>
              rw [hab] at ha
              exact absurd ha (by decide)
          | lt => rfl
          | eq => rfl
  · rw [hrank x y hxy]
    intro ha hb
    cases hcmp : compare (rank x) (rank y) with
    | gt =>
        rw [hcmp] at ha
        exact absurd ha (by decide)
    | eq => exact absurd (Nat.compare_eq_eq.1 hcmp) hxy
    | lt =>
        have hlt := Nat.compare_eq_lt.1 hcmp
        have hle : rank y ≤ rank z := by
          by_contra hgt
          rw [hrank y z (by omega), Nat.compare_eq_gt.2 (by omega)] at hb
          exact absurd hb (by decide)
        rw [hrank x z (by omega)]
        exact Nat.compare_eq_lt.2 (by omega)

end Chained

/-! ## Literals -/

namespace Double

/-- The place in the total order determines the bits. -/
theorem rank_inj {x y : Double} (h : x.rank = y.rank) : x.bits = y.bits := by
  have hx := x.bits.toNat_lt
  have hy := y.bits.toNat_lt
  apply UInt64.toNat_inj.1
  -- The sign and the magnitude are read off the bits by arithmetic on 64 bits.
  have hpow : Nat.pow 2 63 = 9223372036854775808 := by decide
  simp only [rank, isNegative, magnitude, hpow, decide_eq_true_eq] at h
  split at h <;> split at h <;> omega

/-- Numbers are equal in the total order exactly if their bits are. -/
theorem totalCompare_eq_iff {x y : Double} : x.totalCompare y = .eq ↔ x.bits = y.bits := by
  unfold totalCompare
  rw [Std.LawfulEqOrd.compare_eq_iff_eq]
  constructor
  · exact rank_inj
  · intro h
    simp [rank, isNegative, magnitude, h]

end Double

namespace Literal

/-- The order of byte strings is oriented. -/
theorem compareBytes_swap : ∀ xs ys, (compareBytes xs ys).swap = compareBytes ys xs
  | [], [] => rfl
  | [], _ :: _ => rfl
  | _ :: _, [] => rfl
  | x :: xs, y :: ys => by
      simp only [compareBytes, Ordering.swap_then, compareBytes_swap xs ys]
      rw [← Std.OrientedOrd.eq_swap]

/-- The order of byte strings is transitive. -/
theorem compareBytes_chained :
    ∀ xs ys zs, Chained (compareBytes xs ys) (compareBytes ys zs) (compareBytes xs zs)
  | [], [], _ => fun _ _ => rfl
  | [], _ :: _, [] => fun _ h => absurd h (by simp [compareBytes])
  | [], _ :: _, _ :: _ => fun _ _ => rfl
  | _ :: _, [], _ => fun h _ => absurd h (by simp [compareBytes])
  | _ :: _, _ :: _, [] => fun _ h => absurd h (by simp [compareBytes])
  | x :: xs, y :: ys, z :: zs =>
      (Chained.of_transOrd x.toNat y.toNat z.toNat).andThen fun _ _ =>
        compareBytes_chained xs ys zs

/-- Byte strings are equal in their order exactly if they are equal. -/
theorem compareBytes_eq_iff : ∀ {xs ys}, compareBytes xs ys = .eq ↔ xs = ys
  | [], [] => by simp [compareBytes]
  | [], _ :: _ => by simp [compareBytes]
  | _ :: _, [] => by simp [compareBytes]
  | x :: xs, y :: ys => by
      simp only [compareBytes, Ordering.then_eq_eq, Std.LawfulEqOrd.compare_eq_iff_eq,
        compareBytes_eq_iff, UInt8.toNat_inj, List.cons.injEq]

theorem compare_of_kind_ne {x y : Literal} (h : x.kind.rank ≠ y.kind.rank) :
    x.compare y = Ord.compare x.kind.rank y.kind.rank := by
  cases x <;> cases y <;> first | rfl | exact absurd rfl h

theorem compare_swap (x y : Literal) : (x.compare y).swap = y.compare x := by
  cases x <;> cases y <;>
    simp only [compare, Double.totalCompare, compareBytes_swap, ← Std.OrientedOrd.eq_swap]

/-- The order of literals is transitive. -/
theorem compare_chained (x y z : Literal) :
    Chained (x.compare y) (y.compare z) (x.compare z) := by
  apply Chained.of_rank (fun l => l.kind.rank) fun _ _ => compare_of_kind_ne
  intro hxy hyz
  cases x with
  | bool x =>
      cases y <;> cases z <;> simp [kind, Scalar.rank] at hxy hyz
      next y z => exact Chained.of_transOrd x.toNat y.toNat z.toNat
  | int x =>
      cases y <;> cases z <;> simp [kind, Scalar.rank] at hxy hyz
      next y z => exact Chained.of_transOrd x.toInt y.toInt z.toInt
  | float x =>
      cases y <;> cases z <;> simp [kind, Scalar.rank] at hxy hyz
      next y z => exact Chained.of_transOrd x.rank y.rank z.rank
  | string x =>
      cases y <;> cases z <;> simp [kind, Scalar.rank] at hxy hyz
      exact compareBytes_chained _ _ _

/-- Literals are equal in their order exactly if they are the same bit by bit. -/
theorem compare_eq_iff {x y : Literal} : x.compare y = .eq ↔ x.same y = true := by
  cases x <;> cases y <;>
    simp [compare, same, kind, Scalar.rank, Double.totalCompare_eq_iff, compareBytes_eq_iff,
      Int64.toInt_inj]
  case bool.bool x y => cases x <;> cases y <;> decide

end Literal

/-! ## Types -/

namespace Ty

/-- Induction on types, with the hypothesis for every element of a tuple. -/
theorem inductionOn {motive : Ty → Prop} (scalar : ∀ k, motive (.scalar k))
    (object : ∀ c, motive (.object c))
    (union : ∀ x y, motive x → motive y → motive (.union x y))
    (nullable : ∀ x, motive x → motive (.nullable x))
    (array : ∀ x, motive x → motive (.array x))
    (tuple : ∀ ts, (∀ t ∈ ts, motive t) → motive (.tuple ts))
    (callable : ∀ f, motive (.callable f)) (enum : ∀ e, motive (.enum e)) :
    ∀ t, motive t := by
  intro t
  -- The generated recursor has a second motive for the lists in tuples.
  refine @Ty.rec motive (fun ts => ∀ t ∈ ts, motive t) scalar object union nullable array tuple
    callable enum ?_ ?_ t
  · simp
  · intro t ts ht hts u hu
    rcases List.mem_cons.1 hu with rfl | hu
    · exact ht
    · exact hts u hu

theorem compare_of_form_ne {x y : Ty} (h : x.formRank ≠ y.formRank) :
    x.compare y = Ord.compare x.formRank y.formRank := by
  cases x <;> cases y <;> first | rfl | exact absurd rfl h

/-! ### Orientation -/

/-- The order of value lists is oriented. -/
theorem compareValues_swap : ∀ xs ys, (compareValues xs ys).swap = compareValues ys xs
  | [], [] => rfl
  | [], _ :: _ => rfl
  | _ :: _, [] => rfl
  | x :: xs, y :: ys => by
      simp only [compareValues, Ordering.swap_then, Literal.compare_swap, compareValues_swap xs ys]

theorem compareEnums_swap (x y : EnumType) : (compareEnums x y).swap = compareEnums y x := by
  simp only [compareEnums, Ordering.swap_then, compareValues_swap, ← Std.OrientedOrd.eq_swap]

/-- The order of type lists is oriented where the order of their elements is. -/
theorem compareList_swap :
    ∀ {xs ys : List Ty}, (∀ x ∈ xs, ∀ y, (x.compare y).swap = y.compare x) →
      (compareList xs ys).swap = compareList ys xs
  | [], [], _ => by simp [compareList]
  | [], _ :: _, _ => by simp [compareList]
  | _ :: _, [], _ => by simp [compareList]
  | x :: xs, y :: ys, h => by
      have htail : (compareList xs ys).swap = compareList ys xs :=
        compareList_swap fun t ht => h t (List.mem_cons_of_mem x ht)
      simp only [compareList, Ordering.swap_then, h x List.mem_cons_self, htail]

/-- The order of types is oriented. -/
theorem compare_swap (x : Ty) : ∀ y, (x.compare y).swap = y.compare x := by
  induction x using inductionOn with
  | scalar j =>
      intro y
      cases y with
      | scalar k => simp only [compare, ← Std.OrientedOrd.eq_swap]
      | _ => rfl
  | object c =>
      intro y
      cases y with
      | object d =>
          exact (Std.OrientedOrd.eq_swap (a := d.name) (b := c.name)).symm
      | _ => rfl
  | union a b iha ihb =>
      intro y
      cases y with
      | union c d => simp only [compare, Ordering.swap_then, iha, ihb]
      | _ => rfl
  | nullable a ih =>
      intro y
      cases y with
      | nullable b => simp only [compare, ih]
      | _ => rfl
  | array a ih =>
      intro y
      cases y with
      | array b => simp only [compare, ih]
      | _ => rfl
  | tuple ts ih =>
      intro y
      cases y with
      | tuple us =>
          simp only [compare, Ordering.swap_then, compareList_swap ih, ← Std.OrientedOrd.eq_swap]
      | _ => rfl
  | callable f =>
      intro y
      cases y with
      | callable g => exact (Std.OrientedOrd.eq_swap (a := g.name) (b := f.name)).symm
      | _ => rfl
  | enum e =>
      intro y
      cases y with
      | enum f => simp only [compare, compareEnums_swap]
      | _ => rfl

/-! ### Transitivity -/

/-- The order of value lists of one length is transitive. -/
theorem compareValues_chained :
    ∀ {xs ys zs : List Literal}, xs.length = ys.length → ys.length = zs.length →
      Chained (compareValues xs ys) (compareValues ys zs) (compareValues xs zs)
  | [], [], [], _, _ => fun _ _ => rfl
  | x :: _, y :: _, z :: _, hxy, hyz =>
      (Literal.compare_chained x y z).andThen fun _ _ =>
        compareValues_chained (Nat.succ.inj hxy) (Nat.succ.inj hyz)

/-- The order of enums is transitive. -/
theorem compareEnums_chained (x y z : EnumType) :
    Chained (compareEnums x y) (compareEnums y z) (compareEnums x z) := by
  unfold compareEnums
  apply Chained.andThen
  · exact (Chained.of_transOrd _ _ _).andThen fun _ _ => Chained.of_transOrd _ _ _
  -- The values are compared only between enums with as many of them.
  · intro hxy hyz
    rw [Ordering.then_eq_eq] at hxy hyz
    exact compareValues_chained (Nat.compare_eq_eq.1 hxy.1) (Nat.compare_eq_eq.1 hyz.1)

/-- The order of type lists of one length is transitive where the order of their elements is. -/
theorem compareList_chained :
    ∀ {xs ys zs : List Ty},
      (∀ x ∈ xs, ∀ y z, Chained (x.compare y) (y.compare z) (x.compare z)) →
        xs.length = ys.length → ys.length = zs.length →
          Chained (compareList xs ys) (compareList ys zs) (compareList xs zs)
  | [], [], [], _, _, _ => by
      simp only [compareList]
      exact fun _ _ => rfl
  | x :: xs, y :: ys, z :: zs, h, hxy, hyz => by
      simp only [compareList]
      exact (h x List.mem_cons_self y z).andThen fun _ _ =>
        compareList_chained (fun t ht => h t (List.mem_cons_of_mem x ht)) (Nat.succ.inj hxy)
          (Nat.succ.inj hyz)

/-- Transitivity has to be shown for types of one form only. -/
theorem chained_of_form {x y z : Ty}
    (h : x.formRank = y.formRank → y.formRank = z.formRank →
      Chained (x.compare y) (y.compare z) (x.compare z)) :
    Chained (x.compare y) (y.compare z) (x.compare z) :=
  -- Types of different forms are ordered by the ranks of the forms.
  Chained.of_rank formRank (fun _ _ => compare_of_form_ne) h

/-- The order of types is transitive. -/
theorem compare_chained (x : Ty) :
    ∀ y z, Chained (x.compare y) (y.compare z) (x.compare z) := by
  -- Types of different forms are ordered by their forms alone, which `chained_of_form` deals with.
  -- The types of one form are ordered by their parts, one after the other.
  induction x using inductionOn with
  | scalar j =>
      intro y z
      refine chained_of_form fun hxy hyz => ?_
      cases y <;> simp [formRank] at hxy
      cases z <;> simp [formRank] at hyz
      simp only [compare]
      exact Chained.of_transOrd _ _ _
  | object c =>
      intro y z
      refine chained_of_form fun hxy hyz => ?_
      cases y <;> simp [formRank] at hxy
      cases z <;> simp [formRank] at hyz
      next d e => exact Chained.of_transOrd c.name d.name e.name
  | union a b iha ihb =>
      intro y z
      refine chained_of_form fun hxy hyz => ?_
      cases y <;> simp [formRank] at hxy
      cases z <;> simp [formRank] at hyz
      simp only [compare]
      exact (iha _ _).andThen fun _ _ => ihb _ _
  | nullable a ih =>
      intro y z
      refine chained_of_form fun hxy hyz => ?_
      cases y <;> simp [formRank] at hxy
      cases z <;> simp [formRank] at hyz
      simp only [compare]
      exact ih _ _
  | array a ih =>
      intro y z
      refine chained_of_form fun hxy hyz => ?_
      cases y <;> simp [formRank] at hxy
      cases z <;> simp [formRank] at hyz
      simp only [compare]
      exact ih _ _
  | tuple ts ih =>
      intro y z
      refine chained_of_form fun hxy hyz => ?_
      cases y <;> simp [formRank] at hxy
      cases z <;> simp [formRank] at hyz
      simp only [compare]
      exact (Chained.of_transOrd _ _ _).andThen fun hlen hlen' =>
        compareList_chained ih (Nat.compare_eq_eq.1 hlen) (Nat.compare_eq_eq.1 hlen')
  | callable f =>
      intro y z
      refine chained_of_form fun hxy hyz => ?_
      cases y <;> simp [formRank] at hxy
      cases z <;> simp [formRank] at hyz
      next g h => exact Chained.of_transOrd f.name g.name h.name
  | enum e =>
      intro y z
      refine chained_of_form fun hxy hyz => ?_
      cases y <;> simp [formRank] at hxy
      cases z <;> simp [formRank] at hyz
      simp only [compare]
      exact compareEnums_chained _ _ _

/-! ### Equality -/

/-- Value lists of one length are equal in their order exactly if they agree bit by bit. -/
theorem compareValues_eq_iff :
    ∀ {xs ys : List Literal}, xs.length = ys.length →
      (compareValues xs ys = .eq ↔ sameValues xs ys = true)
  | [], [], _ => by simp [compareValues, sameValues]
  | x :: xs, y :: ys, h => by
      simp only [compareValues, sameValues, Ordering.then_eq_eq, Bool.and_eq_true,
        Literal.compare_eq_iff, compareValues_eq_iff (Nat.succ.inj h)]

/-- Value lists that agree bit by bit have one length. -/
theorem length_eq_of_sameValues :
    ∀ {xs ys : List Literal}, sameValues xs ys = true → xs.length = ys.length
  | [], [], _ => rfl
  | [], _ :: _, h => by simp [sameValues] at h
  | _ :: _, [], h => by simp [sameValues] at h
  | x :: xs, y :: ys, h => by
      rw [sameValues, Bool.and_eq_true] at h
      simp [length_eq_of_sameValues h.2]

theorem rank_eq_iff {j k : Scalar} : j.rank = k.rank ↔ j = k := by
  cases j <;> cases k <;> decide

/-- Enums are equal in their order exactly if they are identical. -/
theorem compareEnums_eq_iff {x y : EnumType} :
    compareEnums x y = .eq ↔ (x.kind == y.kind && sameValues x.values y.values) = true := by
  unfold compareEnums
  rw [Ordering.then_eq_eq, Ordering.then_eq_eq, Nat.compare_eq_eq, Nat.compare_eq_eq, rank_eq_iff,
    Bool.and_eq_true, beq_iff_eq]
  constructor
  · rintro ⟨⟨hlen, hkind⟩, hvalues⟩
    exact ⟨hkind, (compareValues_eq_iff hlen).1 hvalues⟩
  · rintro ⟨hkind, hvalues⟩
    have hlen := length_eq_of_sameValues hvalues
    exact ⟨⟨hlen, hkind⟩, (compareValues_eq_iff hlen).2 hvalues⟩

/-- Type lists of one length are equal in their order exactly if they are identical, where this
holds of their elements. -/
theorem compareList_eq_iff :
    ∀ {xs ys : List Ty},
      (∀ x ∈ xs, ∀ y, x.compare y = .eq ↔ x.identical y = true) →
        (xs.length = ys.length ∧ compareList xs ys = .eq ↔ identicalList xs ys = true)
  | [], [], _ => by simp [compareList, identicalList]
  | [], _ :: _, _ => by simp [identicalList]
  | _ :: _, [], _ => by simp [identicalList]
  | x :: xs, y :: ys, h => by
      have htail : xs.length = ys.length ∧ compareList xs ys = .eq ↔ identicalList xs ys = true :=
        compareList_eq_iff fun t ht => h t (List.mem_cons_of_mem x ht)
      simp only [compareList, identicalList, Ordering.then_eq_eq, Bool.and_eq_true,
        h x List.mem_cons_self, ← htail, List.length_cons, Nat.add_right_cancel_iff]
      exact and_left_comm

/-- Types are equal in their order exactly if they are identical. -/
theorem compare_eq_iff (x : Ty) : ∀ y, x.compare y = .eq ↔ x.identical y = true := by
  -- Types of different forms are neither equal nor identical.
  induction x using inductionOn with
  | scalar j =>
      intro y
      cases y with
      | scalar k => simp [compare, identical, rank_eq_iff]
      | _ => simp [compare, identical, formRank]
  | object c =>
      intro y
      cases y with
      | object d =>
          have h : Ord.compare c.name d.name = .eq ↔ c.name = d.name :=
            Std.LawfulEqOrd.compare_eq_iff_eq
          simp only [identical, beq_iff_eq]
          exact h
      | _ => simp [compare, identical, formRank]
  | union a b iha ihb =>
      intro y
      cases y with
      | union c d => simp [compare, identical, iha, ihb]
      | _ => simp [compare, identical, formRank]
  | nullable a ih =>
      intro y
      cases y with
      | nullable b => simp [compare, identical, ih]
      | _ => simp [compare, identical, formRank]
  | array a ih =>
      intro y
      cases y with
      | array b => simp [compare, identical, ih]
      | _ => simp [compare, identical, formRank]
  | tuple ts ih =>
      intro y
      cases y with
      | tuple us =>
          rw [compare, identical, Ordering.then_eq_eq, Nat.compare_eq_eq, compareList_eq_iff ih]
      | _ => simp [compare, identical, formRank]
  | callable f =>
      intro y
      cases y with
      | callable g =>
          have h : Ord.compare f.name g.name = .eq ↔ f.name = g.name :=
            Std.LawfulEqOrd.compare_eq_iff_eq
          simp only [identical, beq_iff_eq]
          exact h
      | _ => simp [compare, identical, formRank]
  | enum e =>
      intro y
      cases y with
      | enum f => rw [compare, identical, compareEnums_eq_iff]
      | _ => simp [compare, identical, formRank]

/-! ### Sorted lists -/

/-- Not coming after is transitive. -/
theorem isLE_trans {x y z : Ty} (hxy : (x.compare y).isLE) (hyz : (y.compare z).isLE) :
    (x.compare z).isLE := by
  rw [compare_chained x y z hxy hyz]
  cases h : x.compare y with
  | gt =>
      rw [h] at hxy
      exact absurd hxy (by decide)
  | lt => rfl
  | eq => simpa using hyz

theorem isLE_total (x y : Ty) : ((x.compare y).isLE || (y.compare x).isLE) = true := by
  rw [← compare_swap x y]
  cases x.compare y <;> decide

/-- Types of which neither comes strictly before the other are identical. -/
theorem identical_of_not_less {x y : Ty} (hxy : x.less y = false) (hyx : y.less x = false) :
    x.identical y = true := by
  rw [← compare_eq_iff]
  rw [less, ← compare_swap x y] at hyx
  rw [less] at hxy
  cases h : x.compare y with
  | lt =>
      rw [h] at hxy
      exact absurd hxy (by decide)
  | eq => rfl
  | gt =>
      rw [h] at hyx
      exact absurd hyx (by decide)

/-- What does not come strictly before a type is not before it in any later place. -/
theorem not_less_of_isLE {x y z : Ty} (hxz : x.less z = false) (hxy : (x.compare y).isLE) :
    y.less z = false := by
  -- Otherwise `x` would come before `z` through `y`.
  by_contra hlt
  have hyz : y.compare z = .lt := by simpa [less] using hlt
  have hchain := compare_chained x y z hxy (by rw [hyz]; rfl)
  rw [hyz] at hchain
  rw [less, hchain] at hxz
  cases h : x.compare y with
  | lt =>
      rw [h] at hxz
      exact absurd hxz (by decide)
  | eq =>
      rw [h] at hxz
      exact absurd hxz (by decide)
  | gt =>
      rw [h] at hxy
      exact absurd hxy (by decide)

theorem identical_refl (x : Ty) : x.identical x = true := by
  rw [← compare_eq_iff]
  have hswap := compare_swap x x
  revert hswap
  cases x.compare x <;> decide

theorem identical_scalar_iff {t : Ty} {k : Scalar} :
    t.identical (.scalar k) = true ↔ t = .scalar k := by
  cases t <;> simp [identical]

/-! ### The total order -/

instance : Std.TransCmp Ty.compare where
  eq_swap := (compare_swap _ _).symm
  isLE_trans := isLE_trans

/-- Identity of types is an equivalence. -/
theorem identical_equivalence : Equivalence fun x y : Ty => x.identical y = true := by
  constructor
  · exact identical_refl
  · intro x y hxy
    rw [← compare_eq_iff] at hxy ⊢
    exact Std.OrientedCmp.eq_symm hxy
  · intro x y z hxy hyz
    rw [← compare_eq_iff] at hxy hyz ⊢
    rw [Std.TransCmp.congr_left hxy]
    exact hyz

/-- Identical types stand at one place in the order. -/
theorem compare_congr {x x' y y' : Ty} (hx : x.identical x' = true) (hy : y.identical y' = true) :
    x.compare y = x'.compare y' := by
  rw [← compare_eq_iff] at hx hy
  calc
    x.compare y = x'.compare y := Std.TransCmp.congr_left hx
    _ = x'.compare y' := Std.TransCmp.congr_right hy

/-- The order of types is total, and the types that are equal in it are the identical ones.
Turning two types round reverses their ordering, and not to come after is transitive. So identity is
an equivalence, and identical types can stand for each other in the order. -/
theorem compare_total :
    (∀ x y : Ty, x.compare y = (y.compare x).swap) ∧
    (∀ x y z : Ty, (x.compare y).isLE → (y.compare z).isLE → (x.compare z).isLE) ∧
    (∀ x y : Ty, x.compare y = .eq ↔ x.identical y = true) ∧
    (Equivalence fun x y : Ty => x.identical y = true) ∧
    ∀ x x' y y' : Ty, x.identical x' = true → y.identical y' = true →
      x.compare y = x'.compare y' := by
  refine ⟨?_, ?_, compare_eq_iff, identical_equivalence, ?_⟩
  · intro x y
    exact (compare_swap y x).symm
  · intro x y z hxy hyz
    exact isLE_trans hxy hyz
  · intro x x' y y' hx hy
    exact compare_congr hx hy

/-- Enums of a NaN, of the two zeros and of values of several kinds in one chain, and two references
to a class that differ in their index. -/
theorem compare_total_enums :
    let ofNaN : Ty := .tuple [.enum ⟨.float, [.float (-Double.nan)]⟩]
    let ofZero : Ty := .tuple [.enum ⟨.float, [.float ⟨0⟩]⟩]
    let ofMixed : Ty := .tuple [.enum ⟨.float, [.int 1]⟩]
    let first : Ty := .array (.object ⟨0, "C0"⟩)
    let second : Ty := .array (.object ⟨7, "C0"⟩)
    (ofNaN.compare ofZero).isLE ∧ (ofMixed.compare ofNaN).isLE ∧
      (ofMixed.compare ofZero).isLE ∧ first.compare ofMixed = second.compare ofMixed := by
  intro ofNaN ofZero ofMixed first second
  obtain ⟨-, htrans, -, -, hcongr⟩ := compare_total
  have hnan : (ofNaN.compare ofZero).isLE := by decide
  have hmixed : (ofMixed.compare ofNaN).isLE := by decide
  exact ⟨hnan, hmixed, htrans _ _ _ hmixed hnan,
    hcongr _ _ _ _ (by decide) (identical_refl ofMixed)⟩

end Ty

end TypedPhp
