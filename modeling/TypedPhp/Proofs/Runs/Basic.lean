import Mathlib.Data.List.Forall2
import TypedPhp.Random.Source

set_option autoImplicit false

/-!
# Outcomes of runs

A draw and a build step are both computations on a state that end in a result or in a fault.
`Runs E x s Q` says how the run of `x` from the state `s` ends: in a result and a state that
satisfy `Q`, or in one of the faults of `E`. With no fault in `E` this is total correctness, with
every fault in `E` it is partial correctness, and one proof over an arbitrary `E` serves both.

`Draw.Gives E x P` is the form for draws: from every source, a result that satisfies `P`.
-/

namespace TypedPhp

variable {σ α β : Type} {E : Fault → Prop}

/-- What is related to each element of a list satisfies what the relation implies. -/
theorem forall₂_right {R : β → Prop} {as : List α} {bs : List β}
    (h : List.Forall₂ (fun _ b => R b) as bs) : ∀ b ∈ bs, R b := by
  induction h with
  | nil => exact nofun
  | cons hb _ ih =>
      intro b hmem
      rcases List.mem_cons.1 hmem with rfl | hmem
      · exact hb
      · exact ih b hmem

/-- Where each element is a function of its partner, the list is the image of the other one. -/
theorem map_eq_of_forall₂ {f : β → α} {as : List α} {bs : List β}
    (h : List.Forall₂ (fun a b => f b = a) as bs) : bs.map f = as := by
  induction h with
  | nil => rfl
  | cons hb _ ih => rw [List.map_cons, hb, ih]

/-- What holds of a value holds of whatever is found where that value is found. -/
theorem forall_of_some {P : α → Prop} {a : α} (h : P a) : ∀ b, some a = some b → P b := by
  intro b hb
  cases hb
  exact h

/-- The run of `x` from `s` ends well: in a result and a state that satisfy `Q`, or in a
fault of `E`. -/
structure Runs (E : Fault → Prop) (x : StateT σ (Except Fault) α) (s : σ) (Q : α → σ → Prop) :
    Prop where
  of_ok : ∀ {a t}, x s = .ok (a, t) → Q a t
  of_error : ∀ {f}, x s = .error f → E f

namespace Runs

variable {x : StateT σ (Except Fault) α} {s t : σ} {a : α} {f : Fault} {Q : α → σ → Prop}

/-- A run that ends in a result. -/
theorem ok (hx : x s = .ok (a, t)) (h : Q a t) : Runs E x s Q := by
  constructor
  · intro b t hb
    rw [hx] at hb
    cases hb
    exact h
  · intro g hg
    rw [hx] at hg
    cases hg

/-- A run that ends in an admitted fault. -/
theorem error (hx : x s = .error f) (h : E f) : Runs E x s Q := by
  constructor
  · intro b t hb
    rw [hx] at hb
    cases hb
  · intro g hg
    rw [hx] at hg
    cases hg
    exact h

theorem pure (h : Q a s) : Runs E (Pure.pure a : StateT σ (Except Fault) α) s Q := ok rfl h

theorem throw (h : E f) : Runs E (MonadExcept.throw f : StateT σ (Except Fault) α) s Q :=
  error rfl h

theorem bind_of_ok {k : α → StateT σ (Except Fault) β} (hx : x s = .ok (a, t)) :
    (x >>= k) s = k a t := by
  have hbind : (x >>= k) s = x s >>= fun r => k r.1 r.2 := rfl
  rw [hbind, hx]
  rfl

theorem bind_of_error {k : α → StateT σ (Except Fault) β} (hx : x s = .error f) :
    (x >>= k) s = .error f := by
  have hbind : (x >>= k) s = x s >>= fun r => k r.1 r.2 := rfl
  rw [hbind, hx]
  rfl

/-- One computation after another. -/
theorem bind {k : α → StateT σ (Except Fault) β} {R : β → σ → Prop}
    (h : Runs E x s fun a s' => Runs E (k a) s' R) : Runs E (x >>= k) s R := by
  cases hx : x s with
  | error f => exact error (bind_of_error hx) (h.of_error hx)
  | ok r =>
      have hk := h.of_ok (a := r.1) (t := r.2) hx
      have heq : (x >>= k) s = k r.1 r.2 := bind_of_ok hx
      constructor
      · intro b t hb
        exact hk.of_ok (heq.symm.trans hb)
      · intro g hg
        exact hk.of_error (heq.symm.trans hg)

/-- A run that returns goes through a result of what comes first. -/
theorem ok_of_bind {k : α → StateT σ (Except Fault) β} {b : β}
    (h : (x >>= k) s = .ok (b, t)) : ∃ a s', x s = .ok (a, s') ∧ k a s' = .ok (b, t) := by
  have hall : Runs (fun _ => True) (x >>= k) s fun b t =>
      ∃ a s', x s = .ok (a, s') ∧ k a s' = .ok (b, t) := by
    apply Runs.bind
    constructor
    · intro a s' hx
      exact ⟨fun hk => ⟨a, s', hx, hk⟩, fun _ => trivial⟩
    · intro _ _
      trivial
  exact hall.of_ok h

theorem mono {Q' : α → σ → Prop} (h : Runs E x s Q) (hQ : ∀ a s', Q a s' → Q' a s') :
    Runs E x s Q' :=
  ⟨fun hx => hQ _ _ (h.of_ok hx), h.of_error⟩

/-- One run for each element of a list, in order, with an invariant over the elements done and their
results. -/
theorem mapM {k : α → StateT σ (Except Fault) β} {I : List α → List β → σ → Prop} {as : List α}
    (hs : I [] [] s)
    (h : ∀ done bs a rest s, as = done ++ a :: rest → I done bs s →
      Runs E (k a) s fun b s' => I (done ++ [a]) (bs ++ [b]) s') :
    Runs E (as.mapM k) s (I as) := by
  -- The invariant speaks of the elements done, so the induction is on those that are left, with
  -- the done ones and their results generalized.
  have hfrom : ∀ rest done bs s, as = done ++ rest → I done bs s →
      Runs E (rest.mapM k) s fun bs' s' => I as (bs ++ bs') s' := by
    intro rest
    induction rest with
    | nil =>
        rintro done bs s rfl hdone
        rw [List.mapM_nil]
        apply Runs.pure
        rw [List.append_nil, List.append_nil]
        exact hdone
    | cons a rest ih =>
        intro done bs s has hdone
        rw [List.mapM_cons]
        refine Runs.bind ((h done bs a rest s has hdone).mono fun b s' hb => ?_)
        have has' : as = (done ++ [a]) ++ rest := by simpa using has
        refine Runs.bind ((ih (done ++ [a]) (bs ++ [b]) s' has' hb).mono fun bs' s'' hbs => ?_)
        apply Runs.pure
        simpa using hbs
  exact hfrom as [] [] s rfl hs

/-- One run for each element of a list, where every run keeps an invariant. -/
theorem mapM_each {k : α → StateT σ (Except Fault) β} {I : σ → Prop} {S : α → β → Prop}
    {as : List α} (hs : I s)
    (h : ∀ a ∈ as, ∀ s, I s → Runs E (k a) s fun b s' => S a b ∧ I s') :
    Runs E (as.mapM k) s fun bs s' => List.Forall₂ S as bs ∧ I s' := by
  refine mapM (I := fun done bs s => List.Forall₂ S done bs ∧ I s) ⟨.nil, hs⟩ ?_
  rintro done bs a rest s has ⟨hdone, hI⟩
  have ha : a ∈ as := by
    rw [has]
    simp
  refine (h a ha s hI).mono fun b s' hb => ⟨?_, hb.2⟩
  exact List.rel_append hdone (.cons hb.1 .nil)

/-- Where no fault but one is admitted, the run ends in a result or in that fault. -/
theorem ok_or_error {f : Fault} (h : Runs (· = f) x s Q) :
    (∃ a s', x s = .ok (a, s') ∧ Q a s') ∨ x s = .error f := by
  cases hx : x s with
  | error g =>
      have hg : g = f := h.of_error hx
      exact Or.inr (by rw [hg])
  | ok r => exact Or.inl ⟨r.1, r.2, rfl, h.of_ok hx⟩

/-- A run that returns something that passes a check. -/
theorem exists_of_check {check : α × σ → Bool} (h : (x s).toOption.any check = true) :
    ∃ a t, x s = .ok (a, t) ∧ check (a, t) = true := by
  cases hrun : x s with
  | error f =>
      rw [hrun] at h
      cases h
  | ok r =>
      rw [hrun] at h
      exact ⟨r.1, r.2, rfl, h⟩

end Runs

namespace Draw

variable {ρ : Type} {P : α → Prop} {R : β → Prop}

/-- Every run of a draw ends well: from every source in a result that satisfies `P`, or in a
fault of `E`. -/
structure Gives (E : Fault → Prop) (x : Draw ρ α) (P : α → Prop) : Prop where
  runs : ∀ s, Runs E x s fun a _ => P a

namespace Gives

variable {x : Draw ρ α}

theorem any (x : Draw ρ α) : Gives (fun _ => True) x fun _ => True :=
  ⟨fun _ => ⟨fun _ => trivial, fun _ => trivial⟩⟩

theorem pure {a : α} (h : P a) : Gives E (Pure.pure a : Draw ρ α) P :=
  ⟨fun _ => Runs.pure h⟩

theorem throw {f : Fault} (h : E f) : Gives E (MonadExcept.throw f : Draw ρ α) P :=
  ⟨fun _ => Runs.throw h⟩

theorem bind {k : α → Draw ρ β} (hx : Gives E x P) (hk : ∀ a, P a → Gives E (k a) R) :
    Gives E (x >>= k) R := by
  constructor
  intro s
  apply Runs.bind
  exact (hx.runs s).mono fun a s' ha => (hk a ha).runs s'

theorem mono {P' : α → Prop} (hx : Gives E x P) (h : ∀ a, P a → P' a) : Gives E x P' :=
  ⟨fun s => (hx.runs s).mono fun a _ => h a⟩

theorem map {g : α → β} (hx : Gives E x P) (h : ∀ a, P a → R (g a)) : Gives E (g <$> x) R := by
  have hmap : g <$> x = x >>= fun a => Pure.pure (g a) := map_eq_pure_bind g x
  rw [hmap]
  exact hx.bind fun a ha => Gives.pure (h a ha)

/-- A lifted result satisfies what is known of it. -/
theorem lift {y : Except Fault α} {a : α} (hy : y = .ok a) (h : P a) :
    Gives E (Draw.lift y : Draw ρ α) P := by
  constructor
  intro s
  apply Runs.ok (a := a) (t := s)
  · rw [hy]
    rfl
  · exact h

theorem bind_lift {y : Except Fault α} {a : α} {k : α → Draw ρ β} (hy : y = .ok a)
    (h : Gives E (k a) R) : Gives E (Draw.lift y >>= k) R := by
  refine (Gives.lift hy (P := (· = a)) rfl).bind fun b hb => ?_
  rw [hb]
  exact h

theorem ite {c : Prop} [Decidable c] {y : Draw ρ α} (hx : c → Gives E x P)
    (hy : ¬ c → Gives E y P) : Gives E (if c then x else y) P := by
  by_cases hc : c
  · rw [if_pos hc]
    exact hx hc
  · rw [if_neg hc]
    exact hy hc

theorem ite_bind {c : Prop} [Decidable c] {y : Draw ρ α} {k : α → Draw ρ β}
    (hx : c → Gives E x P) (hy : ¬ c → Gives E y P) (hk : ∀ a, P a → Gives E (k a) R) :
    Gives E (if c then x >>= k else y >>= k) R :=
  ite (fun hc => (hx hc).bind hk) fun hc => (hy hc).bind hk

/-- As many results as the draw is repeated, each of them as one draw gives it. -/
theorem times (hx : Gives E x P) :
    ∀ n, Gives E (Draw.times x n) fun as => as.length = n ∧ ∀ a ∈ as, P a
  | 0 => Gives.pure (by simp)
  | n + 1 => by
      rw [Draw.times]
      refine hx.bind fun a ha => ?_
      refine (times hx n).bind fun as has => ?_
      apply Gives.pure
      obtain ⟨hlen, hall⟩ := has
      refine ⟨by simp [hlen], ?_⟩
      intro b hb
      rcases List.mem_cons.1 hb with rfl | hb
      · exact ha
      · exact hall b hb

/-- One result for each element, related to it. -/
theorem each {f : α → Draw ρ β} {S : α → β → Prop} :
    ∀ {as : List α}, (∀ a ∈ as, Gives E (f a) (S a)) →
      Gives E (Draw.each f as) (List.Forall₂ S as)
  | [], _ => Gives.pure List.Forall₂.nil
  | a :: as, h => by
      rw [Draw.each]
      refine (h a List.mem_cons_self).bind fun b hb => ?_
      refine (each fun a' ha' => h a' (List.mem_cons_of_mem a ha')).bind fun bs hbs => ?_
      exact Gives.pure (List.Forall₂.cons hb hbs)

/-- One named result for each element of a list. -/
theorem each_named {γ : Type} {f : α → Draw ρ β} {label : α → γ} {name : β → γ} {as : List α}
    (h : ∀ a ∈ as, Gives E (f a) fun b => R b ∧ name b = label a) :
    Gives E (Draw.each f as) fun bs => (∀ b ∈ bs, R b) ∧ bs.map name = as.map label := by
  refine (Gives.each h).mono fun bs hbs => ?_
  -- The runs are over; what is left is a fact about the two lists.
  clear h
  induction hbs with
  | nil => exact ⟨nofun, rfl⟩
  | cons hb _ ih =>
      obtain ⟨hall, hnames⟩ := ih
      refine ⟨?_, by rw [List.map_cons, List.map_cons, hb.2, hnames]⟩
      intro b hmem
      rcases List.mem_cons.1 hmem with rfl | hmem
      · exact hb.1
      · exact hall b hmem

end Gives

theorem times_succ_of_ok {x : Draw ρ α} {a : α} {as : List α} {n : Nat} {s s' s'' : ρ}
    (hfirst : x s = .ok (a, s')) (hrest : times x n s' = .ok (as, s'')) :
    times x (n + 1) s = .ok (a :: as, s'') := by
  rw [times]
  exact (Runs.bind_of_ok hfirst).trans (Runs.bind_of_ok hrest)

end Draw

end TypedPhp
