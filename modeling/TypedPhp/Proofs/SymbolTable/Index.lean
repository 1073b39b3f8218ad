import Mathlib.Data.List.Induction
import Mathlib.Data.List.Pairwise
import TypedPhp.Proofs.Ty.Order
import TypedPhp.SymbolTable.Index

set_option autoImplicit false

/-!
# Look-up in a frozen index

In a list of entries in order, the range of the entries under an element type lies between two
places that a binary search finds (`TypeIndex.equalRange_eq_slice`), so it is exactly the list of the
entries under identical element types (`TypeIndex.equalRange_eq_filter`). A look-up in a frozen index
therefore finds only what was registered under an identical type (`TypeIndex.Holds.find`). As the
sort is stable it finds all of it, in the order in which it came (`TypeIndex.Keeps.find`).
-/

namespace TypedPhp.TypeIndex

variable {α : Type}

/-! ## Entries in order -/

/-- The entries are in the order of their element types. -/
def Ordered (entries : List (Ty × α)) : Prop :=
  entries.Pairwise fun x y => (x.1.compare y.1).isLE

/-- Sorted entries are in order. -/
theorem ordered_mergeSort (entries : List (Ty × α)) :
    Ordered (entries.mergeSort fun x y => (x.1.compare y.1).isLE) := by
  apply List.pairwise_mergeSort
  · intro x y z hxy hyz
    exact Ty.isLE_trans hxy hyz
  · intro x y
    exact Ty.isLE_total x.1 y.1

/-- A type that comes strictly before another is not identical to it. -/
theorem not_identical_of_less {x y : Ty} (h : x.less y = true) : x.identical y = false := by
  rw [← Bool.not_eq_true]
  intro hid
  rw [Ty.less, (Ty.compare_eq_iff _ _).2 hid] at h
  cases h

theorem not_isLE_of_less {x y : Ty} (h : x.less y = true) : ¬ (y.compare x).isLE := by
  rw [Ty.less, beq_iff_eq] at h
  rw [← Ty.compare_swap, h]
  decide

/-! ## Partition points -/

/-- A place in a list before which all elements pass a test and after which none does. -/
structure IsPartitionPoint {β : Type} (p : β → Bool) (xs : List β) (k : Nat) : Prop where
  le : k ≤ xs.length
  before : ∀ x ∈ xs.take k, p x = true
  after : ∀ x ∈ xs.drop k, p x = false

namespace IsPartitionPoint

variable {β : Type} {p : β → Bool} {xs : List β} {k : Nat}

/-- The elements before a partition point. -/
theorem takeWhile_eq (h : IsPartitionPoint p xs k) : xs.takeWhile p = xs.take k := by
  conv_lhs => rw [← List.take_append_drop k xs]
  rw [List.takeWhile_append_of_pos h.before]
  cases hrest : xs.drop k with
  | nil => simp
  | cons x rest =>
      have hx := h.after x (by simp [hrest])
      simp [hx]

/-- The elements after a partition point. -/
theorem dropWhile_eq (h : IsPartitionPoint p xs k) : xs.dropWhile p = xs.drop k := by
  conv_lhs => rw [← List.take_append_drop k xs]
  rw [List.dropWhile_append_of_pos h.before]
  cases hrest : xs.drop k with
  | nil => simp
  | cons x rest =>
      have hx := h.after x (by simp [hrest])
      simp [hx]

/-- A test that fails on all elements after one on which it fails has a partition point. -/
theorem of_pairwise (h : xs.Pairwise fun x y => p x = false → p y = false) :
    IsPartitionPoint p xs (xs.takeWhile p).length := by
  induction xs with
  | nil => exact ⟨Nat.le_refl 0, by simp, by simp⟩
  | cons x xs ih =>
      obtain ⟨hfirst, hrest⟩ := List.pairwise_cons.1 h
      cases hx : p x with
      | true =>
          obtain ⟨hle, hbefore, hafter⟩ := ih hrest
          constructor
          · simpa [hx] using hle
          · simpa [hx] using hbefore
          · simpa [hx] using hafter
      | false =>
          constructor
          · simp [hx]
          · simp [hx]
          · simpa [hx] using fun y hy => hfirst y hy hx

/-- A partition point of the elements from an earlier place on. -/
theorem drop (h : IsPartitionPoint p xs k) {i : Nat} (hi : i ≤ k) :
    IsPartitionPoint p (xs.drop i) (k - i) := by
  constructor
  · have hle := h.le
    rw [List.length_drop]
    omega
  · intro x hx
    rw [← List.drop_take] at hx
    exact h.before x (List.mem_of_mem_drop hx)
  · intro x hx
    rw [List.drop_drop, Nat.add_sub_of_le hi] at hx
    exact h.after x hx

end IsPartitionPoint

section PartitionPoints

variable {elem : Ty} {entries : List (Ty × α)}

/-- The entries before an element type come first. -/
theorem Ordered.isPartitionPoint_less (h : Ordered entries) :
    IsPartitionPoint (fun x => x.1.less elem) entries
      (entries.takeWhile fun x => x.1.less elem).length := by
  apply IsPartitionPoint.of_pairwise
  apply h.imp
  intro x y hxy hx
  exact Ty.not_less_of_isLE hx hxy

/-- The entries up to an element type come first. -/
theorem Ordered.isPartitionPoint_not_less (h : Ordered entries) :
    IsPartitionPoint (fun x => !elem.less x.1) entries
      (entries.takeWhile fun x => !elem.less x.1).length := by
  apply IsPartitionPoint.of_pairwise
  apply h.imp
  intro x y hxy hx
  simp only [Bool.not_eq_false', Ty.less, beq_iff_eq] at hx ⊢
  exact Std.TransCmp.lt_of_lt_of_isLE hx hxy

/-- The range of equal entries lies between two partition points: that of the entries before the
element type and that of the entries up to it. -/
theorem equalRange_eq_slice {lo hi : Nat}
    (hlo : IsPartitionPoint (fun x => x.1.less elem) entries lo)
    (hhi : IsPartitionPoint (fun x => !elem.less x.1) entries hi) :
    lo ≤ hi ∧ equalRange elem entries = ((entries.take hi).drop lo).map (·.2) := by
  have hle : lo ≤ hi := by
    by_contra hlt
    have hget : hi < entries.length := by
      have hlength := hlo.le
      omega
    -- The entry at `hi` would come both before and after the element type.
    have hbefore := hlo.before entries[hi] (List.mem_take_iff_getElem.2 ⟨hi, by omega, rfl⟩)
    have hafter := hhi.after entries[hi] (List.mem_drop_iff_getElem.2 ⟨0, by omega, by simp⟩)
    simp only [Bool.not_eq_false'] at hafter
    apply not_isLE_of_less hbefore
    rw [Ty.less, beq_iff_eq] at hafter
    rw [hafter]
    rfl
  refine ⟨hle, ?_⟩
  rw [equalRange, hlo.dropWhile_eq, (hhi.drop hle).takeWhile_eq, List.drop_take]

/-- Between the two partition points are the entries under an identical type. -/
theorem slice_eq_filter {lo hi : Nat} (hle : lo ≤ hi)
    (hlo : IsPartitionPoint (fun x => x.1.less elem) entries lo)
    (hhi : IsPartitionPoint (fun x => !elem.less x.1) entries hi) :
    (entries.take hi).drop lo = entries.filter (·.1.identical elem) := by
  have hsplit : entries = entries.take lo ++ ((entries.take hi).drop lo ++ entries.drop hi) := by
    calc entries = entries.take hi ++ entries.drop hi := (List.take_append_drop hi entries).symm
      _ = (entries.take hi).take lo ++ (entries.take hi).drop lo ++ entries.drop hi := by
        rw [List.take_append_drop lo (entries.take hi)]
      _ = entries.take lo ++ ((entries.take hi).drop lo ++ entries.drop hi) := by
        rw [List.take_take, Nat.min_eq_left hle, List.append_assoc]
  have hbefore : (entries.take lo).filter (·.1.identical elem) = [] := by
    apply List.filter_eq_nil_iff.2
    intro x hx
    simp [not_identical_of_less (hlo.before x hx)]
  have hbetween : ((entries.take hi).drop lo).filter (·.1.identical elem) =
      (entries.take hi).drop lo := by
    apply List.filter_eq_self.2
    intro x hx
    have hupto : (!elem.less x.1) = true := hhi.before x (List.mem_of_mem_drop hx)
    rw [List.drop_take] at hx
    have hfrom : x.1.less elem = false := hlo.after x (List.mem_of_mem_take hx)
    exact Ty.identical_of_not_less hfrom (by simpa using hupto)
  have hafter : (entries.drop hi).filter (·.1.identical elem) = [] := by
    apply List.filter_eq_nil_iff.2
    intro x hx hid
    have hless : elem.less x.1 = true := by simpa using hhi.after x hx
    have hid' : elem.identical x.1 = true := Ty.identical_equivalence.symm hid
    rw [not_identical_of_less hless] at hid'
    cases hid'
  conv_rhs => rw [hsplit]
  rw [List.filter_append, List.filter_append, hbefore, hbetween, hafter]
  simp

/-- The range of equal entries is the list of the entries under an identical type. -/
theorem equalRange_eq_filter (h : Ordered entries) :
    equalRange elem entries = (entries.filter (·.1.identical elem)).map (·.2) := by
  have hlo : IsPartitionPoint (fun x => x.1.less elem) entries _ := h.isPartitionPoint_less
  have hhi : IsPartitionPoint (fun x => !elem.less x.1) entries _ := h.isPartitionPoint_not_less
  obtain ⟨hle, hslice⟩ := equalRange_eq_slice hlo hhi
  rw [hslice, slice_eq_filter hle hlo hhi]

end PartitionPoints

/-! ## What an index holds -/

/-- Every entry of an index is registered under a type to which it is related. -/
structure Holds (R : Ty → α → Prop) (i : TypeIndex α) : Prop where
  scalar : ∀ p ∈ i.scalars, R (.scalar p.1) p.2
  array : ∀ p ∈ i.arrays, R (.array p.1) p.2

variable {R S : Ty → α → Prop} {i : TypeIndex α}

namespace Holds

theorem empty : Holds R (.empty : TypeIndex α) := by
  constructor <;> simp [TypeIndex.empty]

theorem mono (h : Holds R i) (hRS : ∀ t e, R t e → S t e) : Holds S i :=
  ⟨fun p hp => hRS _ _ (h.scalar p hp), fun p hp => hRS _ _ (h.array p hp)⟩

/-- One more entry under a scalar kind. -/
theorem insert_scalar (h : Holds R i) {k : Scalar} {e : α} (he : R (.scalar k) e) :
    Holds R { i with scalars := i.scalars ++ [(k, e)] } := by
  refine ⟨?_, h.array⟩
  intro p hp
  rcases List.mem_append.1 hp with hp | hp
  · exact h.scalar p hp
  · obtain rfl := List.mem_singleton.1 hp
    exact he

/-- One more entry. -/
theorem insert (h : Holds R i) {t : Ty} {e : α} (he : R t e) : Holds R (i.insert t e) := by
  -- `mixed` and the types other than arrays are not indexed.
  cases t with
  | scalar k =>
      cases k with
      | mixed => exact h
      | _ => exact h.insert_scalar he
  | array elem =>
      refine ⟨h.scalar, ?_⟩
      intro p hp
      rcases List.mem_append.1 hp with hp | hp
      · exact h.array p hp
      · obtain rfl := List.mem_singleton.1 hp
        exact he
  | _ => exact h

theorem freeze (h : Holds R i) : Holds R i.freeze := by
  refine ⟨h.scalar, ?_⟩
  intro p hp
  exact h.array p ((List.mergeSort_perm i.arrays _).mem_iff.1 hp)

/-- A look-up in an index in order finds entries under identical types only. -/
theorem find (h : Holds R i) (hord : Ordered i.arrays) {t : Ty} {e : α} (he : e ∈ i.find t) :
    ∃ t', t'.identical t = true ∧ R t' e := by
  cases t with
  | scalar k =>
      obtain ⟨p, hp, rfl⟩ := List.mem_map.1 he
      obtain ⟨hmem, hk⟩ := List.mem_filter.1 hp
      exact ⟨.scalar p.1, by simpa [Ty.identical] using hk, h.scalar p hmem⟩
  | array elem =>
      rw [TypeIndex.find, equalRange_eq_filter hord] at he
      obtain ⟨p, hp, rfl⟩ := List.mem_map.1 he
      obtain ⟨hmem, hid⟩ := List.mem_filter.1 hp
      exact ⟨.array p.1, by simpa [Ty.identical] using hid, h.array p hmem⟩
  | _ => cases he

end Holds

/-! ## What an index finds -/

/-- Whether entries are kept under a type: `void`, a kind with literals, or an array type. -/
def isKey : Ty → Bool
  | .scalar k => k != .mixed
  | .array _ => true
  | _ => false

/-- The entries under the types identical to a given one, in their order. -/
def matching (t : Ty) (entries : List (Ty × α)) : List α :=
  (entries.filter (·.1.identical t)).map (·.2)

/-- The index in which entries are registered one after the other. -/
def ofEntries (entries : List (Ty × α)) : TypeIndex α :=
  entries.foldl (fun i e => i.insert e.1 e.2) .empty

theorem ofEntries_append (entries : List (Ty × α)) (t : Ty) (e : α) :
    ofEntries (entries ++ [(t, e)]) = (ofEntries entries).insert t e := by
  simp [ofEntries, List.foldl_append]

theorem matching_append (t : Ty) (xs ys : List (Ty × α)) :
    matching t (xs ++ ys) = matching t xs ++ matching t ys := by
  simp [matching]

/-- The entries under a scalar kind after an insertion. -/
theorem filter_scalars_insert (i : TypeIndex α) (t : Ty) (e : α) (k : Scalar) :
    ((i.insert t e).scalars.filter (·.1 == k)).map (·.2) =
      (i.scalars.filter (·.1 == k)).map (·.2) ++
        if k = .mixed then [] else matching (.scalar k) [(t, e)] := by
  cases t with
  | scalar j =>
      cases j with
      | mixed => cases k <;> simp [TypeIndex.insert, matching, Ty.identical]
      | _ => cases k <;> simp [TypeIndex.insert, matching, Ty.identical]
  | _ => simp [TypeIndex.insert, matching, Ty.identical]

/-- The entries under an array type after an insertion. -/
theorem filter_arrays_insert (i : TypeIndex α) (t : Ty) (e : α) (elem : Ty) :
    ((i.insert t e).arrays.filter (·.1.identical elem)).map (·.2) =
      (i.arrays.filter (·.1.identical elem)).map (·.2) ++ matching (.array elem) [(t, e)] := by
  cases t with
  | scalar j => cases j <;> simp [TypeIndex.insert, matching, Ty.identical]
  | array x => cases hx : x.identical elem <;> simp [TypeIndex.insert, matching, Ty.identical, hx]
  | _ => simp [TypeIndex.insert, matching, Ty.identical]

/-- An index keeps some entries: under every type those of that type, in their order. -/
structure Keeps (entries : List (Ty × α)) (i : TypeIndex α) : Prop where
  scalar : ∀ k, (i.scalars.filter (·.1 == k)).map (·.2) =
    if k = .mixed then [] else matching (.scalar k) entries
  array : ∀ elem, (i.arrays.filter (·.1.identical elem)).map (·.2) =
    matching (.array elem) entries

/-- Sorting by an order keeps the entries that are equal in it in their order. -/
theorem filter_mergeSort (elem : Ty) (entries : List (Ty × α)) :
    (entries.mergeSort fun x y => (x.1.compare y.1).isLE).filter (·.1.identical elem) =
      entries.filter (·.1.identical elem) := by
  symm
  have hequal : (entries.filter (·.1.identical elem)).Pairwise
      fun x y => (x.1.compare y.1).isLE := by
    apply List.pairwise_of_forall_mem_list
    intro x hx y hy
    have hxe := (List.mem_filter.1 hx).2
    have hye := (List.mem_filter.1 hy).2
    have hxy : x.1.identical y.1 = true :=
      Ty.identical_equivalence.trans hxe (Ty.identical_equivalence.symm hye)
    rw [(Ty.compare_eq_iff _ _).2 hxy]
    rfl
  have htrans : ∀ x y z : Ty × α, (x.1.compare y.1).isLE → (y.1.compare z.1).isLE →
      (x.1.compare z.1).isLE := fun _ _ _ => Ty.isLE_trans
  have htotal : ∀ x y : Ty × α, ((x.1.compare y.1).isLE || (y.1.compare x.1).isLE) = true :=
    fun x y => Ty.isLE_total x.1 y.1
  -- Entries that are equal in the order form a sorted sublist, which a stable sort keeps in order.
  -- As many are found on either side, so they are all.
  have hsub := List.sublist_mergeSort htrans htotal hequal List.filter_sublist
  have hfilter := hsub.filter (·.1.identical elem)
  rw [List.filter_filter] at hfilter
  simp only [Bool.and_self] at hfilter
  apply hfilter.eq_of_length
  exact ((List.mergeSort_perm entries _).filter _).length_eq.symm

variable {entries : List (Ty × α)}

namespace Keeps

theorem empty : Keeps [] (.empty : TypeIndex α) := by
  constructor
  · intro k
    simp [TypeIndex.empty, matching]
  · intro elem
    rfl

/-- One more entry. -/
theorem insert (h : Keeps entries i) (t : Ty) (e : α) :
    Keeps (entries ++ [(t, e)]) (i.insert t e) := by
  constructor
  · intro k
    rw [filter_scalars_insert, h.scalar, matching_append]
    split <;> simp
  · intro elem
    rw [filter_arrays_insert, h.array, matching_append]

/-- An index of entries keeps them. -/
theorem ofEntries (entries : List (Ty × α)) : Keeps entries (.ofEntries entries) := by
  induction entries using List.reverseRecOn with
  | nil => exact empty
  | append_singleton entries e ih =>
      rw [ofEntries_append]
      exact ih.insert e.1 e.2

theorem freeze (h : Keeps entries i) : Keeps entries i.freeze := by
  refine ⟨h.scalar, ?_⟩
  intro elem
  rw [TypeIndex.freeze, filter_mergeSort, h.array]

/-- A look-up in an index in order finds exactly the entries of the type, and none under the
types that are not indexed. -/
theorem find (h : Keeps entries i) (hord : Ordered i.arrays) (t : Ty) :
    i.find t = if isKey t then matching t entries else [] := by
  cases t with
  | scalar k =>
      rw [TypeIndex.find, h.scalar]
      cases k <;> rfl
  | array elem =>
      rw [TypeIndex.find, equalRange_eq_filter hord, h.array]
      rfl
  | _ => rfl

end Keeps

end TypedPhp.TypeIndex
