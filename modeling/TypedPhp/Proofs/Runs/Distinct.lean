import Mathlib.Data.List.Infix
import TypedPhp.Proofs.Runs.Building
import TypedPhp.Proofs.Ty.Proper

set_option autoImplicit false

/-!
# Distinct samples

A source of samples is asked until enough of them differ from each other, by an equality that need
not be one: a sample that does not even equal itself is always new. `Draw.firsts` says what is kept
of some samples, and the collecting loop keeps just that, from the shortest beginning of the samples
of which enough is kept (`Draw.distinct_exact`). It asks for no more of them, and if there is no
such beginning it asks for all. The values of an enum are collected so, and no two of them are the
same.
-/

namespace TypedPhp

theorem Literal.eqv_self_of_kind {l : Literal} (h : l.kind ≠ .float) : l.eqv l = true := by
  cases l with
  | float x => exact absurd rfl h
  | _ => exact beq_self_eq_true _

theorem Literal.eqv_self_float {x : Double} (h : x.isNaN = false) :
    (float x).eqv (float x) = true := by
  simp [eqv, Double.numEq, h]

namespace Draw

variable {σ α : Type}

/-! ## What is kept -/

section Kept

variable (eqv : α → α → Bool)

/-- What is kept after one more sample: the sample as well, unless one kept before equals it. -/
def addNew (kept : List α) (x : α) : List α := if kept.any (eqv · x) then kept else kept ++ [x]

/-- What is kept of some samples, in the order in which they came. -/
def firsts (xs : List α) : List α := xs.foldl (addNew eqv) []

/-- Of the samples `n` are kept, and of no shorter beginning of them as many. -/
structure Completes (n : Nat) (xs : List α) : Prop where
  enough : (firsts eqv xs).length = n
  shortest : ∀ ys, ys <+: xs → ys ≠ xs → (firsts eqv ys).length < n

variable {eqv} {kept xs ys : List α} {n : Nat}

theorem prefix_addNew (x : α) : kept <+: addNew eqv kept x := by
  unfold addNew
  split
  · exact List.prefix_refl kept
  · exact List.prefix_append kept [x]

theorem length_addNew_le (x : α) : (addNew eqv kept x).length ≤ kept.length + 1 := by
  unfold addNew
  split
  · exact Nat.le_succ _
  · rw [List.length_append, List.length_singleton]

theorem prefix_foldl_addNew (kept xs : List α) : kept <+: xs.foldl (addNew eqv) kept := by
  induction xs generalizing kept with
  | nil => exact List.prefix_refl kept
  | cons x xs ih => exact (prefix_addNew x).trans (ih (addNew eqv kept x))

theorem prefix_firsts (h : ys <+: xs) : firsts eqv ys <+: firsts eqv xs := by
  obtain ⟨zs, rfl⟩ := h
  rw [firsts, firsts, List.foldl_append]
  exact prefix_foldl_addNew _ zs

/-- A sample that is added equals none before it. -/
theorem pairwise_addNew (h : kept.Pairwise fun x y => eqv x y = false) (x : α) :
    (addNew eqv kept x).Pairwise fun x y => eqv x y = false := by
  unfold addNew
  split
  · exact h
  · rename_i hnew
    rw [List.pairwise_append]
    refine ⟨h, List.pairwise_singleton _ x, fun y hy z hz => ?_⟩
    obtain rfl := List.mem_singleton.1 hz
    rw [Bool.not_eq_true, List.any_eq_false] at hnew
    exact Bool.eq_false_iff.2 (hnew y hy)

/-- No two samples that are kept are equal, the earlier one on the left. -/
theorem pairwise_firsts (xs : List α) : (firsts eqv xs).Pairwise fun x y => eqv x y = false := by
  have hfold : ∀ {kept : List α}, kept.Pairwise (fun x y => eqv x y = false) →
      (xs.foldl (addNew eqv) kept).Pairwise fun x y => eqv x y = false := by
    induction xs with
    | nil => exact fun h => h
    | cons x xs ih => exact fun h => ih (pairwise_addNew h x)
  exact hfold List.Pairwise.nil

/-- Everything that is kept is a sample. -/
theorem mem_of_mem_firsts {a : α} (h : a ∈ firsts eqv xs) : a ∈ xs := by
  have hfold : ∀ {kept : List α}, a ∈ xs.foldl (addNew eqv) kept → a ∈ kept ∨ a ∈ xs := by
    clear h
    induction xs with
    | nil => exact Or.inl
    | cons x xs ih =>
        intro kept h
        rcases ih h with h | h
        · unfold addNew at h
          split at h
          · exact Or.inl h
          · rcases List.mem_append.1 h with h | h
            · exact Or.inl h
            · exact Or.inr (List.mem_cons.2 (Or.inl (List.mem_singleton.1 h)))
        · exact Or.inr (List.mem_cons_of_mem x h)
  exact (hfold h).resolve_left nofun

/-- Samples of which enough is kept have a shortest beginning of which enough is kept. -/
theorem exists_completes (h : n ≤ (firsts eqv xs).length) :
    ∃ ys, ys <+: xs ∧ Completes eqv n ys := by
  induction xs using List.reverseRecOn with
  | nil =>
      have hn : 0 = n := Eq.symm (Nat.le_zero.1 h)
      refine ⟨[], List.prefix_refl [], hn, fun ys hys hne => ?_⟩
      exact absurd (List.prefix_nil.1 hys) hne
  | append_singleton xs x ih =>
      by_cases hxs : n ≤ (firsts eqv xs).length
      · obtain ⟨ys, hys, hcompletes⟩ := ih hxs
        exact ⟨ys, hys.trans (List.prefix_append xs [x]), hcompletes⟩
      -- Otherwise it is the last sample that completes them, since it adds no more than one.
      · have hadd : (firsts eqv (xs ++ [x])).length ≤ (firsts eqv xs).length + 1 := by
          rw [firsts, List.foldl_append]
          exact length_addNew_le x
        refine ⟨xs ++ [x], List.prefix_refl _, by omega, fun ys hys hne => ?_⟩
        have hbefore : ys <+: xs := by
          rcases List.prefix_concat_iff.1 hys with heq | hbefore
          · exact absurd heq hne
          · exact hbefore
        have hkept : firsts eqv ys <+: firsts eqv xs := prefix_firsts hbefore
        have hle := hkept.length_le
        omega

/-- What is kept of the shortest beginning is the first part of what is kept of all samples. -/
theorem Completes.firsts_eq (h : Completes eqv n ys) (hys : ys <+: xs) :
    firsts eqv ys = (firsts eqv xs).take n := by
  rw [← h.enough]
  exact List.prefix_iff_eq_take.1 (prefix_firsts hys)

theorem Completes.eq_nil (h : Completes eqv 0 xs) : xs = [] := by
  by_contra hne
  exact absurd (h.shortest [] List.nil_prefix (Ne.symm hne)) (Nat.not_lt_zero _)

end Kept

/-! ## Taking samples -/

section Runs

variable {eqv : α → α → Bool} {sample : Draw σ α} {n : Nat} {s t u : σ} {kept xs ys : List α}

/-- `xs` are the first samples from the source `s`, and `t` is what they leave of it. -/
inductive Takes (sample : Draw σ α) : σ → List α → σ → Prop where
  | nil (s : σ) : Takes sample s [] s
  | cons {s t u : σ} {x : α} {xs : List α} :
      sample s = .ok (x, t) → Takes sample t xs u → Takes sample s (x :: xs) u

namespace Takes

/-- The samples of a beginning are taken first. -/
theorem split (h : Takes sample s (xs ++ ys) u) :
    ∃ t, Takes sample s xs t ∧ Takes sample t ys u := by
  induction xs generalizing s with
  | nil => exact ⟨s, .nil s, h⟩
  | cons x xs ih =>
      cases h with
      | cons hx hrest =>
          obtain ⟨t, hxs, hys⟩ := ih hrest
          exact ⟨t, .cons hx hxs, hys⟩

theorem forall_mem {E : Fault → Prop} {P : α → Prop} (hs : Gives E sample P)
    (h : Takes sample s xs t) : ∀ x ∈ xs, P x := by
  induction h with
  | nil _ => exact nofun
  | @cons s _ _ x xs hx _ ih => exact List.forall_mem_cons.2 ⟨(hs.runs s).of_ok hx, ih⟩

end Takes

/-! ## The loop -/

/-- The loop for `n` samples where some have been kept already, the first one first. -/
def collecting (eqv : α → α → Bool) (sample : Draw σ α) (n attempts : Nat) (kept : List α) :
    Draw σ (List α) :=
  distinctFrom eqv sample attempts (n - kept.length) kept.reverse

theorem distinct_eq_collecting (attempts : Nat) :
    distinct eqv attempts n sample = collecting eqv sample n attempts [] := rfl

theorem collecting_full (h : n ≤ kept.length) (attempts : Nat) :
    collecting eqv sample n attempts kept s = .ok (kept, s) := by
  rw [collecting, Nat.sub_eq_zero_of_le h]
  cases attempts <;> rw [distinctFrom, List.reverse_reverse] <;> rfl

/-- Without enough kept the loop goes on only while it has attempts. -/
theorem collecting_spent (h : kept.length < n) :
    collecting eqv sample n 0 kept s = .error .outOfAttempts := by
  have hwanted : n - kept.length = n - kept.length - 1 + 1 := by omega
  rw [collecting, hwanted, distinctFrom]
  rfl

/-- One turn of the loop takes one sample, and keeps it if it is new. -/
theorem collecting_next {x : α} (h : kept.length < n) (hx : sample s = .ok (x, t))
    (attempts : Nat) : collecting eqv sample n (attempts + 1) kept s =
      collecting eqv sample n attempts (addNew eqv kept x) t := by
  have hwanted : n - kept.length = n - kept.length - 1 + 1 := by omega
  rw [collecting, collecting, hwanted, distinctFrom]
  refine (Runs.bind_of_ok hx).trans ?_
  rw [List.any_reverse, addNew]
  split
  · rw [← hwanted]
  · rw [List.length_append, List.length_singleton, List.reverse_concat, Nat.sub_add_eq]

theorem collecting_error {f : Fault} (h : kept.length < n) (hx : sample s = .error f)
    (attempts : Nat) : collecting eqv sample n (attempts + 1) kept s = .error f := by
  have hwanted : n - kept.length = n - kept.length - 1 + 1 := by omega
  rw [collecting, hwanted, distinctFrom]
  exact Runs.bind_of_error hx

/-- Turns of the loop: as long as no shorter beginning of the samples is enough, the loop takes
all of them, one in each turn, and goes on with what is kept of them. -/
theorem Takes.collecting_eq (h : Takes sample s xs t) :
    ∀ {kept : List α}, (∀ ys, ys <+: xs → ys ≠ xs → (ys.foldl (addNew eqv) kept).length < n) →
      ∀ attempts, collecting eqv sample n (xs.length + attempts) kept s =
        collecting eqv sample n attempts (xs.foldl (addNew eqv) kept) t := by
  -- What is kept grows from turn to turn, so the induction is over all that can be kept before.
  induction h with
  | nil s =>
      intro kept _ attempts
      rw [List.length_nil, Nat.zero_add]
      rfl
  | @cons s t u x xs hx hxs ih =>
      intro kept hshort attempts
      have hkept : kept.length < n := hshort [] List.nil_prefix (List.cons_ne_nil x xs).symm
      rw [List.length_cons, Nat.add_right_comm, collecting_next hkept hx]
      refine ih (fun ys hys hne => ?_) attempts
      exact hshort (x :: ys) ((List.prefix_cons_inj x).2 hys) fun heq => hne (List.cons.inj heq).2

theorem Takes.distinct_eq (h : Takes sample s xs t)
    (hshort : ∀ ys, ys <+: xs → ys ≠ xs → (firsts eqv ys).length < n) (attempts : Nat) :
    distinct eqv (xs.length + attempts) n sample s =
      collecting eqv sample n attempts (firsts eqv xs) t :=
  h.collecting_eq hshort attempts

/-- A run that collects `n` samples: it takes just the samples that complete them, has a result
once it is granted a turn for each, and this is what is kept of them. No two results are equal. -/
structure Collects (eqv : α → α → Bool) (sample : Draw σ α) (n : Nat) (s : σ) (taken : List α)
    (t : σ) : Prop where
  takes : Takes sample s taken t
  completes : Completes eqv n taken
  returns : ∀ attempts, taken.length ≤ attempts →
    distinct eqv attempts n sample s = .ok (firsts eqv taken, t)
  spent : ∀ attempts, attempts < taken.length →
    distinct eqv attempts n sample s = .error .outOfAttempts
  pairwise : (firsts eqv taken).Pairwise fun x y => eqv x y = false

/-- Samples that complete `n` are collected. -/
theorem Takes.collects (h : Takes sample s xs t) (hc : Completes eqv n xs) :
    Collects eqv sample n s xs t where
  takes := h
  completes := hc
  returns := by
    intro attempts hle
    obtain ⟨more, rfl⟩ := Nat.exists_eq_add_of_le hle
    rw [h.distinct_eq hc.shortest]
    exact collecting_full (Nat.le_of_eq hc.enough.symm) more
  spent := by
    intro attempts hlt
    -- So many turns take a beginning of the samples, of which too little is kept.
    have hwhole : Takes sample s (xs.take attempts ++ xs.drop attempts) t := by
      rwa [List.take_append_drop]
    obtain ⟨u, htake, -⟩ := hwhole.split
    have hlength : (xs.take attempts).length = attempts := by
      rw [List.length_take]
      omega
    have hproper : ∀ ys, ys <+: xs.take attempts → (firsts eqv ys).length < n := by
      intro ys hys
      refine hc.shortest ys (hys.trans (List.take_prefix attempts xs)) ?_
      rintro rfl
      have hle := hys.length_le
      omega
    have hrun := htake.distinct_eq (fun ys hys _ => hproper ys hys) 0
    rw [hlength] at hrun
    exact hrun.trans (collecting_spent (hproper _ (List.prefix_refl _)))
  pairwise := pairwise_firsts xs

/-- Samples of which enough is kept are collected, by taking a beginning of them. -/
theorem Takes.exists_collects (h : Takes sample s xs t) (hn : n ≤ (firsts eqv xs).length) :
    ∃ taken u, taken <+: xs ∧ Collects eqv sample n s taken u := by
  obtain ⟨taken, hprefix, hc⟩ := exists_completes hn
  obtain ⟨rest, rfl⟩ := hprefix
  obtain ⟨u, htaken, -⟩ := h.split
  exact ⟨taken, u, List.prefix_append taken rest, htaken.collects hc⟩

/-- Where the loop returns, it has taken samples of which enough is kept, and at most one in each
turn. -/
theorem takes_of_collecting {values : List α} :
    ∀ {attempts : Nat} {kept : List α} {s : σ},
      collecting eqv sample n attempts kept s = .ok (values, t) →
      ∃ xs, Takes sample s xs t ∧ xs.length ≤ attempts ∧ n ≤ values.length ∧
        values = xs.foldl (addNew eqv) kept
  -- The recursion is on the attempts: a turn that does not end the loop uses up one of them.
  | attempts, kept, s, h => by
      by_cases hfull : n ≤ kept.length
      · rw [collecting_full hfull] at h
        cases h
        exact ⟨[], .nil _, Nat.zero_le _, hfull, rfl⟩
      · have hlt := Nat.lt_of_not_le hfull
        cases attempts with
        | zero =>
            rw [collecting_spent hlt] at h
            cases h
        | succ attempts =>
            cases hx : sample s with
            | error f =>
                rw [collecting_error hlt hx] at h
                cases h
            | ok r =>
                rw [collecting_next hlt hx] at h
                obtain ⟨xs, htakes, hle, hn, rfl⟩ := takes_of_collecting h
                exact ⟨r.1 :: xs, .cons hx htakes, Nat.succ_le_succ hle, hn, rfl⟩

/-- Where the loop returns, its samples are collected. -/
theorem collects_of_distinct {attempts : Nat} {values : List α}
    (h : distinct eqv attempts n sample s = .ok (values, t)) :
    ∃ taken, Collects eqv sample n s taken t ∧ values = firsts eqv taken := by
  rw [distinct_eq_collecting] at h
  obtain ⟨xs, htakes, hle, hn, hvalues⟩ := takes_of_collecting h
  rw [hvalues] at hn
  obtain ⟨taken, u, hprefix, hcollects⟩ := htakes.exists_collects hn
  have hreturns := hcollects.returns attempts (Nat.le_trans hprefix.length_le hle)
  rw [← distinct_eq_collecting, hreturns] at h
  cases h
  exact ⟨taken, hcollects, rfl⟩

/-- As long as too little is kept, the loop goes on: it has taken all samples so far, one in
each turn, and if the next one fails it fails as well. -/
theorem Takes.goes_on (h : Takes sample s xs t) (hfew : (firsts eqv xs).length < n) :
    (∀ attempts, distinct eqv (xs.length + attempts) n sample s =
      collecting eqv sample n attempts (firsts eqv xs) t) ∧
    ∀ f, sample t = .error f → ∀ attempts, xs.length < attempts →
      distinct eqv attempts n sample s = .error f := by
  have hturns : ∀ attempts, distinct eqv (xs.length + attempts) n sample s =
      collecting eqv sample n attempts (firsts eqv xs) t := by
    refine h.distinct_eq fun ys hys _ => ?_
    exact Nat.lt_of_le_of_lt (prefix_firsts hys).length_le hfew
  refine ⟨hturns, fun f hf attempts hlt => ?_⟩
  obtain ⟨more, rfl⟩ := Nat.exists_eq_add_of_lt hlt
  rw [Nat.add_assoc, hturns]
  exact collecting_error hfew hf more

theorem takes_ofSequence (xs ys : List α) : Takes ofSequence (xs ++ ys) xs ys := by
  induction xs with
  | nil => exact .nil ys
  | cons x xs ih => exact .cons rfl ih

end Runs

/-! ## Values of enums -/

/-- The values of an enum of a kind: three literals of this kind, which is one that has enums,
and no two of them are the same. -/
structure EnumValues (k : Scalar) (values : List Literal) : Prop where
  kind_mem : k = .int ∨ k = .float ∨ k = .string
  length : values.length = 3
  kind : ∀ l ∈ values, l.kind = k
  distinct : values.Pairwise fun l m => l.same m = false

variable {ρ : Type} [WordSource ρ] {env : Env} {k : Scalar}

/-- What is drawn for an enum is of its kind and equals itself. -/
theorem enumValue_self : Gives (fun _ => True) (enumValue env k : Draw ρ Literal) fun l =>
    (k = .int ∨ k = .float ∨ k = .string) ∧ l.kind = k ∧ l.eqv l = true := by
  have hc : env.config.ChancesIn fun _ => True := fun _ _ _ => trivial
  cases k with
  | int =>
      refine (enumValue_gives hc (Or.inl rfl)).mono fun l hl => ?_
      exact ⟨Or.inl rfl, hl.kind, Literal.eqv_self_of_kind (by rw [hl.kind]; decide)⟩
  | string =>
      refine (enumValue_gives hc (Or.inr (Or.inr rfl))).mono fun l hl => ?_
      exact ⟨Or.inr (Or.inr rfl), hl.kind, Literal.eqv_self_of_kind (by rw [hl.kind]; decide)⟩
  | float =>
      refine Gives.bind (P := fun x => x.isNaN = false) ?_ fun x hx =>
        Gives.pure ⟨Or.inr (Or.inl rfl), rfl, Literal.eqv_self_float hx⟩
      exact (int_gives false (by decide)).bind fun n _ => Gives.pure (Double.isNaN_ofRatio _ _ _)
  | _ => exact Gives.throw trivial

/-- The values of an enum that is drawn are collected from the literals of its kind. -/
theorem values_of_enumType {s t : ρ} {ty : Ty}
    (h : (enumType env k : Draw ρ Ty) s = .ok (ty, t)) :
    ∃ taken values, Collects Literal.eqv (enumValue env k) 3 s taken t ∧
      values = firsts Literal.eqv taken ∧ ty = .enum ⟨k, values⟩ ∧ EnumValues k values := by
  obtain ⟨values, t', hdistinct, hty⟩ := Runs.ok_of_bind h
  cases hty
  obtain ⟨taken, hcollects, rfl⟩ := collects_of_distinct hdistinct
  have hall : ∀ l ∈ firsts Literal.eqv taken,
      (k = .int ∨ k = .float ∨ k = .string) ∧ l.kind = k ∧ l.eqv l = true :=
    fun l hl => hcollects.takes.forall_mem enumValue_self l (mem_of_mem_firsts hl)
  have hlength := hcollects.completes.enough
  refine ⟨taken, _, hcollects, rfl, rfl, ?_, hlength, fun l hl => (hall l hl).2.1, ?_⟩
  -- There is a value, and whatever was drawn is of one of these kinds.
  · obtain ⟨l, hl⟩ := List.exists_mem_of_length_pos (l := firsts Literal.eqv taken) (by omega)
    exact (hall l hl).1
  -- Values that are the same would be equal, since each of them equals itself.
  · refine hcollects.pairwise.imp_of_mem fun {l m} hl _ hne => ?_
    apply Bool.eq_false_iff.2
    intro hsame
    obtain rfl := Literal.same_iff.1 hsame
    rw [(hall l hl).2.2] at hne
    cases hne

/-! ## Collecting distinct samples -/

/-- Distinct samples are the first ones of each, for every source and every equality. If enough
is kept of some samples, the shortest beginning of which enough is kept is taken and no more, and the
result is what is kept of it; nothing else is ever returned. As long as too little is kept, all
samples are taken. An enum that is drawn has three values of its kind, and no two of them are the
same. -/
theorem distinct_exact {σ α : Type} (eqv : α → α → Bool) (sample : Draw σ α) (n : Nat) (s : σ) :
    (∀ xs t, Takes sample s xs t → n ≤ (firsts eqv xs).length →
      ∃ taken u, taken <+: xs ∧ Collects eqv sample n s taken u ∧
        firsts eqv taken = (firsts eqv xs).take n ∧ (n = 0 → taken = [] ∧ u = s)) ∧
    (∀ xs t, Takes sample s xs t → (firsts eqv xs).length < n →
      (∀ attempts, distinct eqv (xs.length + attempts) n sample s =
        collecting eqv sample n attempts (firsts eqv xs) t) ∧
      ∀ f, sample t = .error f → ∀ attempts, xs.length < attempts →
        distinct eqv attempts n sample s = .error f) ∧
    (∀ attempts values t, distinct eqv attempts n sample s = .ok (values, t) →
      ∃ taken, Collects eqv sample n s taken t ∧ values = firsts eqv taken) ∧
    ∀ {ρ : Type} [WordSource ρ] (env : Env) (k : Scalar) (r r' : ρ) (ty : Ty),
      (enumType env k : Draw ρ Ty) r = .ok (ty, r') →
        ∃ taken values, Collects Literal.eqv (enumValue env k) 3 r taken r' ∧
          values = firsts Literal.eqv taken ∧ ty = .enum ⟨k, values⟩ ∧ EnumValues k values := by
  refine ⟨fun xs t htakes hn => ?_, fun xs t htakes hfew => htakes.goes_on hfew,
    fun attempts values t h => collects_of_distinct h, fun env k r r' ty h => values_of_enumType h⟩
  obtain ⟨taken, u, hprefix, hcollects⟩ := htakes.exists_collects hn
  refine ⟨taken, u, hprefix, hcollects, hcollects.completes.firsts_eq hprefix, ?_⟩
  rintro rfl
  obtain rfl := hcollects.completes.eq_nil
  cases hcollects.takes
  exact ⟨rfl, rfl⟩

/-- A NaN is new each time, so it is kept twice; two samples that are equal are not enough for two;
and three floats are found for an enum. -/
theorem distinct_exact_nan :
    let one : Literal := .float ⟨0x3ff0000000000000⟩
    let nan : Literal := .float .nan
    (∃ rest, distinct Literal.eqv 9 3 ofSequence [nan, one, one, nan, .int 1] =
        .ok ([nan, one, nan], rest)) ∧
      distinct Literal.eqv 9 2 ofSequence [one, one] = .error .sequenceEnded ∧
      ∃ values r, (enumType (Generator.bare 0).env .float : Draw Scripted.Stream Ty) ⟨[], 0⟩ =
          .ok (.enum ⟨.float, values⟩, r) ∧ EnumValues .float values := by
  intro one nan
  refine ⟨?_, ?_, ?_⟩
  · obtain ⟨hcollect, -⟩ := distinct_exact Literal.eqv ofSequence 3 [nan, one, one, nan, .int 1]
    obtain ⟨taken, rest, hprefix, hcollects, hkept, -⟩ :=
      hcollect _ _ (takes_ofSequence [nan, one, one, nan] [.int 1]) (by decide)
    have hle : taken.length ≤ 9 := Nat.le_trans hprefix.length_le (by decide)
    refine ⟨rest, (hcollects.returns 9 hle).trans ?_⟩
    rw [hkept]
    rfl
  · obtain ⟨-, hgoes, -⟩ := distinct_exact Literal.eqv ofSequence 2 [one, one]
    exact (hgoes _ _ (takes_ofSequence [one, one] []) (by decide)).2 _ rfl 9 (by decide)
  · obtain ⟨-, -, -, henum⟩ := distinct_exact Literal.eqv ofSequence 0 []
    have hany : ((enumType (Generator.bare 0).env .float : Draw Scripted.Stream Ty)
        ⟨[], 0⟩).toOption.any (fun _ => true) = true := by
      decide +kernel
    obtain ⟨ty, r, hrun, -⟩ := Runs.exists_of_check hany
    obtain ⟨-, values, -, -, rfl, hvalues⟩ := henum _ _ _ _ _ hrun
    exact ⟨values, r, hrun, hvalues⟩

end Draw

end TypedPhp
