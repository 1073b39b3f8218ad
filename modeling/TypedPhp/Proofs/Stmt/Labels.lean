import TypedPhp.Proofs.Stmt.Draws
import TypedPhp.Proofs.Expr.Kinds
import TypedPhp.Proofs.Stmt.Surroundings

set_option autoImplicit false

/-!
# Labels of a switch

A switch draws one label after another and keeps those that it has not seen. `Tries` is the history
of such a run: which constants were drawn, and for which of them a body was built. From every state
from which a switch is built, its cases are those of the labels that were kept, and a label is kept
exactly if no earlier one is the same (`Build.switch_labels`). Case bodies may hold switches
themselves; nothing is assumed of what builds their statements.
-/

namespace TypedPhp

/-! ## Candidates -/

/-- A label that was drawn for a case, and the body that was built for it unless it was skipped. -/
structure Candidate where
  label : Literal
  body : Option (List Node)

namespace Candidate

/-- The label was not skipped. -/
def isKept (c : Candidate) : Bool := c.body.isSome

/-- The case of a label that was kept. -/
def case? (c : Candidate) : Option Node :=
  c.body.map fun body => .ofArgs .case (.lit c.label :: body)

end Candidate

/-- A literal that can be a label for a tag of a type: of the kind of the type, which is integers
or strings, and one of the values of an enum. -/
structure LabelOf (t : Ty) (l : Literal) : Prop where
  kind : t.valueKind? = some l.kind
  discrete : l.kind = .int ∨ l.kind = .string
  value : ∀ e, t = .enum e → l ∈ e.values
  constant : (Node.lit l).constant = .ok (some l)

/-- Where some labels have been seen, those kept among the tried ones are the new ones. -/
def KeepsNew (seen : List Literal) (tried : List Candidate) : Prop :=
  ∀ before c after, tried = before ++ c :: after →
    (c.isKept = true ↔
      (∀ l ∈ seen, l.same c.label = false) ∧ ∀ d ∈ before, d.label.same c.label = false)

namespace KeepsNew

variable {seen : List Literal} {c : Candidate} {tried : List Candidate}

theorem nil : KeepsNew seen [] := by
  intro before c after h
  simp at h

/-- A new label is kept, and it has been seen from then on. -/
theorem kept {l : Literal} {body : List Node} (hnew : ∀ m ∈ seen, m.same l = false)
    (h : KeepsNew (l :: seen) tried) : KeepsNew seen (⟨l, some body⟩ :: tried) := by
  intro before c after heq
  cases before with
  | nil =>
      obtain ⟨rfl, -⟩ := List.cons.inj heq
      simpa [Candidate.isKept] using hnew
  | cons d before =>
      obtain ⟨rfl, htail⟩ := List.cons.inj heq
      rw [h before c after htail]
      simp only [List.forall_mem_cons]
      tauto

/-- A label that is the same as a seen one is skipped, and no more has been seen than before. -/
theorem skipped {l m : Literal} (hm : m ∈ seen) (hsame : m.same l = true)
    (h : KeepsNew seen tried) : KeepsNew seen (⟨l, none⟩ :: tried) := by
  obtain rfl := Literal.same_iff.1 hsame
  intro before c after heq
  cases before with
  | nil =>
      obtain ⟨rfl, -⟩ := List.cons.inj heq
      simp only [Candidate.isKept, Option.isSome_none, Bool.false_eq_true, false_iff]
      intro hnew
      rw [hnew.1 m hm] at hsame
      cases hsame
  | cons d before =>
      obtain ⟨rfl, htail⟩ := List.cons.inj heq
      rw [h before c after htail]
      simp only [List.forall_mem_cons]
      constructor
      · rintro ⟨hseen, hbefore⟩
        exact ⟨hseen, hseen m hm, hbefore⟩
      · rintro ⟨hseen, -, hbefore⟩
        exact ⟨hseen, hbefore⟩

/-- What was tried before a label that is kept is not the same. -/
theorem pairwise (h : KeepsNew seen tried) :
    tried.Pairwise fun c d => d.isKept = true → c.label.same d.label = false := by
  rw [List.pairwise_iff_getElem]
  intro i j hi hj hij hkept
  have hsplit : tried = tried.take j ++ tried[j] :: tried.drop (j + 1) := by simp
  apply ((h _ _ _ hsplit).1 hkept).2
  rw [List.mem_take_iff_getElem]
  exact ⟨i, by omega, rfl⟩

end KeepsNew

/-- The labels of a switch over a type: all of them can be labels for it, one is kept exactly if
no earlier one is the same, and so no two that were kept are the same. -/
structure Labels (t : Ty) (tried : List Candidate) : Prop where
  all : ∀ c ∈ tried, LabelOf t c.label
  firsts : ∀ before c after, tried = before ++ c :: after →
    (c.isKept = true ↔ ∀ d ∈ before, d.label.same c.label = false)
  distinct : ((tried.filter Candidate.isKept).map (·.label)).Pairwise fun l m => l.same m = false

/-- Labels that are tried from the start. -/
theorem KeepsNew.labels {t : Ty} {tried : List Candidate} (hall : ∀ c ∈ tried, LabelOf t c.label)
    (h : KeepsNew [] tried) : Labels t tried := by
  refine ⟨hall, fun before c after heq => ?_, ?_⟩
  · simpa using h before c after heq
  · rw [List.pairwise_map, List.pairwise_filter]
    apply h.pairwise.imp
    intro c d hpair _ hkept
    exact hpair hkept

/-- The first label is kept. -/
theorem Labels.one_le {t : Ty} {tried : List Candidate} (h : Labels t tried)
    (hne : 1 ≤ tried.length) : 1 ≤ (tried.filterMap Candidate.case?).length := by
  obtain ⟨c, rest, rfl⟩ := List.exists_cons_of_length_pos hne
  have hkept : c.isKept = true := (h.firsts [] c rest rfl).2 nofun
  obtain ⟨body, hbody⟩ := Option.isSome_iff_exists.1 hkept
  simp [Candidate.case?, hbody]

/-! ## Runs of cases -/

section Runs

variable {ρ : Type} [WordSource ρ] (one : Build ρ (List Node)) (t : Ty)

/-- One label after another is drawn for a type and tried. Nothing is built for a label that is
skipped: the next one is drawn right after it. -/
inductive Tries : Generator ρ → List Candidate → Generator ρ → Prop where
  | done (g : Generator ρ) : Tries g [] g
  | skipped {g g₁ g' : Generator ρ} {l : Literal} {tried : List Candidate} :
      Build.draw (fun env => Draw.constant env t) g = .ok (.lit l, g₁) →
      Tries g₁ tried g' → Tries g (⟨l, none⟩ :: tried) g'
  | kept {g g₁ g₂ g' : Generator ρ} {l : Literal} {body : List Node} {tried : List Candidate} :
      Build.draw (fun env => Draw.constant env t) g = .ok (.lit l, g₁) →
      Build.caseBody one g₁ = .ok (body, g₂) → Tries g₂ tried g' →
      Tries g (⟨l, some body⟩ :: tried) g'

end Runs

variable {t : Ty}

theorem Node.constant_lit (l : Literal) : (Node.lit l).constant = .ok (some l) := by
  cases l <;> simp [lit, literalOp, constant]

/-- A constant of a type of a switch is a label for it. -/
theorem TagType.label {n : Node} (ht : TagType t) (hn : ConstantOf t n) :
    ∃ l, n = .lit l ∧ LabelOf t l := by
  cases ht with
  | int =>
      obtain ⟨l, rfl, hl⟩ := ConstantOf.lit_of_scalar (k := .int) hn
      exact ⟨l, rfl, by rw [hl]; rfl, Or.inl hl, nofun, Node.constant_lit l⟩
  | string =>
      obtain ⟨l, rfl, hl⟩ := ConstantOf.lit_of_scalar (k := .string) hn
      exact ⟨l, rfl, by rw [hl]; rfl, Or.inr hl, nofun, Node.constant_lit l⟩
  | enum hkind hvalues _ =>
      cases hn with
      | @enum e l hl =>
          have hl' := hvalues l hl
          refine ⟨l, rfl, by rw [hl']; rfl, by rw [hl']; exact hkind, ?_, Node.constant_lit l⟩
          rintro _ ⟨⟩
          exact hl

namespace Build

variable {ρ : Type} [WordSource ρ] {one : Build ρ (List Node)} {g g' : Generator ρ} {ns : List Node}

/-- The label that is drawn for a tag of a type. -/
theorem label_of_draw (ht : TagType t) {label : Node}
    (h : draw (fun env => Draw.constant env t) g = .ok (label, g')) :
    ∃ l, label = .lit l ∧ LabelOf t l := by
  have hgives : Draw.Gives (fun _ => True) (Draw.constant g.env t : Draw ρ Node)
      (DrawnConstant t) :=
    Draw.constant_gives (fun _ _ _ => trivial) ht.isConstInitializable ht.proper
  exact ht.label (of_draw_eq_ok hgives h).constant

/-- The cases of a switch are those of the labels that were kept, and those are the new ones. -/
theorem casesOf_tries (ht : TagType t) :
    ∀ {n : Nat} {seen : List Literal} {g : Generator ρ} {ns : List Node},
      casesOf one t n seen g = .ok (ns, g') →
      ∃ tried, Tries one t g tried g' ∧ tried.length = n ∧
        ns = tried.filterMap Candidate.case? ∧ (∀ c ∈ tried, LabelOf t c.label) ∧
        KeepsNew seen tried
  | 0, seen, g, ns, h => by
      cases h
      exact ⟨[], .done _, rfl, rfl, nofun, .nil⟩
  | n + 1, seen, g, ns, h => by
      rw [casesOf] at h
      obtain ⟨label, g₁, hdraw, h⟩ := Runs.ok_of_bind h
      obtain ⟨l, rfl, hl⟩ := label_of_draw ht hdraw
      obtain ⟨l?, g₂, hconstant, h⟩ := Runs.ok_of_bind h
      rw [hl.constant] at hconstant
      cases hconstant
      dsimp only at h
      split at h
      -- The label was seen: nothing is drawn for it, and the same labels are seen by the rest.
      · rename_i hseen
        obtain ⟨m, hm, hsame⟩ := List.any_eq_true.1 hseen
        obtain ⟨tried, htries, rfl, rfl, hlabels, hnew⟩ := casesOf_tries ht h
        exact ⟨⟨l, none⟩ :: tried, .skipped hdraw htries, rfl, rfl,
          List.forall_mem_cons.2 ⟨hl, hlabels⟩, hnew.skipped hm hsame⟩
      -- The label is new: it is seen by the rest, which keeps to other ones.
      · rename_i hseen
        obtain ⟨body, g₃, hbody, h⟩ := Runs.ok_of_bind h
        obtain ⟨rest, g₄, hrest, h⟩ := Runs.ok_of_bind h
        cases h
        obtain ⟨tried, htries, rfl, rfl, hlabels, hnew⟩ := casesOf_tries ht hrest
        refine ⟨⟨l, some body⟩ :: tried, .kept hdraw hbody htries, rfl, rfl,
          List.forall_mem_cons.2 ⟨hl, hlabels⟩, hnew.kept ?_⟩
        simpa using hseen

/-- What is built for a switch from any state and for any source: the tag, between one and the
greatest number of cases, and at most one default. The cases are those of the labels that were kept,
in the order in which they were drawn, for the type that the tag was drawn for. -/
theorem switch_labels (h : switch one g = .ok (ns, g')) :
    ∃ (t : Ty) (tag : Node) (n : Nat) (tried : List Candidate) (default : List Node)
      (g₁ g₂ g₃ g₄ : Generator ρ),
      draw tagType g = .ok (t, g₁) ∧
      value t g₁ = .ok (tag, g₂) ∧
      draw (fun env => Draw.range 1 (max env.config.maxCases 1)) g₂ = .ok (n, g₃) ∧
      Tries one t g₃ tried g₄ ∧ tried.length = n ∧ Labels t tried ∧
      ns = [.ofArgs .switch (tag :: tried.filterMap Candidate.case? ++ default)] ∧
      1 ≤ (tried.filterMap Candidate.case?).length ∧
      (tried.filterMap Candidate.case?).length ≤ max g.config.maxCases 1 ∧
      default.length ≤ 1 ∧ ∀ d ∈ default, d.op = .defaultCase := by
  unfold switch at h
  obtain ⟨t, g₁, htype, h⟩ := Runs.ok_of_bind h
  obtain ⟨tag, g₂, htag, h⟩ := Runs.ok_of_bind h
  obtain ⟨n, g₃, hcount, h⟩ := Runs.ok_of_bind h
  obtain ⟨cases, g₄, hcases, h⟩ := Runs.ok_of_bind h
  obtain ⟨hasDefault, g₅, -, h⟩ := Runs.ok_of_bind h
  have ht : TagType t :=
    (of_draw_eq_ok (Draw.tagType_gives (fun _ _ _ => trivial) trivial) htype).1
  obtain ⟨tried, htries, rfl, rfl, hall, hnew⟩ := casesOf_tries ht hcases
  have hlabels : Labels t tried := hnew.labels hall
  -- The configuration is still that of the start when the number of labels is drawn.
  have hsource : g.OnlySource g₂ :=
    .trans ((SourceOnly.draw _).of_ok htype) ((SourceOnly.value t).of_ok htag)
  have hconfig : g₂.config = g.config := congrArg Env.config hsource.env_eq
  have hrange := of_draw_eq_ok (Draw.range_gives (E := fun _ => True) fun _ => trivial) hcount
  have hle : (tried.filterMap Candidate.case?).length ≤ max g.config.maxCases 1 := by
    rw [← hconfig]
    exact Nat.le_trans (List.length_filterMap_le _ _) hrange.2
  have hdefault : ∃ default : List Node,
      ns = [.ofArgs .switch (tag :: tried.filterMap Candidate.case? ++ default)] ∧
      default.length ≤ 1 ∧ ∀ d ∈ default, d.op = .defaultCase := by
    split at h
    · obtain ⟨body, g₆, -, h⟩ := Runs.ok_of_bind h
      cases h
      exact ⟨[.ofArgs .defaultCase body], rfl, Nat.le_refl 1, by simp [Node.ofArgs, Node.op]⟩
    · cases h
      exact ⟨[], rfl, Nat.zero_le 1, by simp⟩
  obtain ⟨default, hns, hlen, hop⟩ := hdefault
  exact ⟨t, tag, _, tried, default, g₁, g₂, g₃, g₄, htype, htag, hcount, htries, rfl, hlabels, hns,
    hlabels.one_le hrange.1, hle, hlen, hop⟩

/-- A switch for which five labels are tried, of which no more than three are kept. -/
theorem switch_labels_repeated :
    let g := { Generator.bare 19 with stmtDepth := 2 }
    ∃ ns g', switch (stmt 1) g = .ok (ns, g') ∧
      ∃ t tried, Labels t tried ∧ tried.length = 5 ∧
        (tried.filterMap Candidate.case?).length ≤ 3 := by
  intro g
  have hswitch : (switch (stmt 1) g).toOption.any
      (fun r => r.1.map (·.args.length) == [4]) = true := by
    decide +kernel
  have hcount : ((do
      let t ← draw tagType
      let _ ← value t
      draw fun env => Draw.range 1 (max env.config.maxCases 1) : Build Scripted.Stream Nat)
        g).toOption.any (fun r => r.1 == 5) = true := by
    decide +kernel
  obtain ⟨ns, g', hrun, hargs⟩ := Runs.exists_of_check hswitch
  obtain ⟨n, g₃', hcount, hn⟩ := Runs.exists_of_check hcount
  obtain ⟨t, tag, n', tried, default, g₁, g₂, g₃, g₄, htype, htag, hcount', -, hlen, hlabels, hns,
    -⟩ := switch_labels hrun
  -- The draws before the labels are the same in both runs.
  obtain ⟨t', g₁', htype', hcount⟩ := Runs.ok_of_bind hcount
  rw [htype] at htype'
  cases htype'
  obtain ⟨tag', g₂', htag', hcount⟩ := Runs.ok_of_bind hcount
  rw [htag] at htag'
  cases htag'
  rw [hcount'] at hcount
  cases hcount
  refine ⟨ns, g', hrun, t, tried, hlabels, hlen.trans (eq_of_beq hn), ?_⟩
  have hargs : ns.map (·.args.length) = [4] := eq_of_beq hargs
  rw [hns] at hargs
  simp [Node.ofArgs, Node.args] at hargs
  omega

end Build

end TypedPhp
