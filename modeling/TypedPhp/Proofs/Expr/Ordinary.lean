import TypedPhp.Proofs.Expr.Linked
import TypedPhp.Proofs.Names
import TypedPhp.Proofs.Read.Token

set_option autoImplicit false

/-!
# Ordinary names

The names in an expression are those of variables that it reads, of helpers of operators, and of
what the symbol table holds. Where all of these can be read as names, and none is the name of the
helper that dumps values, the same is true of every name in a derived expression: the condition is
admitted (`Env.admits_ordinary`). Dumps are statements, so no expression has a reason to name their
helper.
-/

namespace TypedPhp

open Read (identChar isIdentifier isName)

/-! ## Names -/

/-- A name other than that of the helper that dumps values. -/
def OrdinaryName (s : String) : Prop := isName s = true ∧ s ≠ "fuzz_dump"

instance (s : String) : Decidable (OrdinaryName s) := inferInstanceAs (Decidable (_ ∧ _))

theorem Read.identChar_of_mem_toString {i : Nat} {c : Char} (h : c ∈ (toString i).toList) :
    identChar c = true := by
  rw [show (toString i).toList = Nat.toDigits 10 i from Nat.toList_repr] at h
  rw [identChar, Nat.isDigit_of_mem_toDigits (by decide) (by decide) h, Bool.or_true]

/-- More characters of identifiers may follow an identifier. -/
theorem Read.isIdentifier_append {s t : String} (hs : isIdentifier s = true)
    (ht : ∀ c ∈ t.toList, identChar c = true) : isIdentifier (s ++ t) = true := by
  obtain ⟨c, rest, heq, hstart, hrest⟩ := exists_of_isIdentifier hs
  rw [isIdentifier, String.toList_append, heq, List.cons_append]
  refine Bool.and_eq_true_iff.2 ⟨hstart, List.all_eq_true.2 ?_⟩
  exact List.forall_mem_append.2 ⟨hrest, ht⟩

/-- An identifier with a digit in it is a name, as the words that are no names have none. -/
theorem Read.isName_of_digit {s : String} (h : isIdentifier s = true)
    (hdigit : s.toList.any Char.isDigit = true) : isName s = true := by
  have hwords : ∀ w ∈ keywords ++ castWords.map (·.1) ++ floatWords,
      w.toList.any Char.isDigit = false := by decide
  have hlower : (lower s).toList.any Char.isDigit = true := by
    obtain ⟨d, hd, hdigit⟩ := List.any_eq_true.1 hdigit
    refine List.any_eq_true.2 ⟨d, ?_, hdigit⟩
    -- No digit is an upper-case letter, so it stays as it is in lower case.
    have hsame : d.toLower = d := by
      simp only [Char.isDigit, Bool.and_eq_true, decide_eq_true_eq] at hdigit
      have hnot : ¬ (d.val ≥ 65 ∧ d.val ≤ 90) :=
        fun hupper => absurd (UInt32.le_trans hupper.1 hdigit.2) (by decide)
      exact dif_neg hnot
    rw [lower, String.toList_ofList, ← hsame]
    exact List.mem_map_of_mem hd
  have hnone : ∀ w ∈ keywords ++ castWords.map (·.1) ++ floatWords, lower s ≠ w ∧ s ≠ w := by
    intro w hw
    have hw := hwords w hw
    constructor <;> rintro rfl
    · rw [hlower] at hw
      cases hw
    · rw [hdigit] at hw
      cases hw
  have hkeyword : lower s ∉ keywords :=
    fun hmem => (hnone _ (List.mem_append_left _ (List.mem_append_left _ hmem))).1 rfl
  have hcast : castWords.lookup (lower s) = none := by
    refine List.lookup_eq_none_iff.2 fun w hw => bne_iff_ne.2 ?_
    exact (hnone _ (List.mem_append_left _ (List.mem_append_right _ (List.mem_map_of_mem hw)))).1
  have hfloat : s ∉ floatWords := fun hmem => (hnone _ (List.mem_append_right _ hmem)).2 rfl
  simp [isName, h, hkeyword, hcast, hfloat]

theorem OrdinaryName.isIdentifier {s : String} (h : OrdinaryName s) : isIdentifier s = true := by
  have hname := h.1
  simp only [isName, Bool.and_eq_true] at hname
  exact hname.1.1.1

/-- A numbered name is ordinary: it has a digit, and the name of the helper has none. -/
theorem OrdinaryName.numbered {start : String} (h : Read.isIdentifier start = true) (i : Nat) :
    OrdinaryName (start ++ toString i) := by
  have hdigit : (start ++ toString i).toList.any Char.isDigit = true := by
    obtain ⟨d, tail, hdigits, hd⟩ := (Read.numeral_toDigits i).head
    rw [String.toList_append, show (toString i).toList = Nat.toDigits 10 i from Nat.toList_repr,
      hdigits]
    exact List.any_eq_true.2 ⟨d, List.mem_append_right _ List.mem_cons_self, hd⟩
  have hident : Read.isIdentifier (start ++ toString i) = true :=
    Read.isIdentifier_append h fun c hc => Read.identChar_of_mem_toString hc
  refine ⟨Read.isName_of_digit hident hdigit, fun heq => ?_⟩
  rw [heq] at hdigit
  revert hdigit
  decide

theorem VariableName.ordinary {s : String} (h : VariableName s) : OrdinaryName s := by
  have hstarts : ∀ start ∈ ["p", "v", "_c"], isIdentifier start = true := by decide
  rcases h with rfl | ⟨start, hstart, i, rfl⟩
  · decide
  · exact .numbered (hstarts start hstart) i

/-! ## Tables -/

/-- The names of a table are ordinary: those of its functions, its classes and their fields. -/
structure SymbolTable.Ordinary (t : SymbolTable) : Prop where
  funcs : ∀ f ∈ t.funcs, OrdinaryName f.name
  classes : ∀ name ∈ t.classNames, OrdinaryName name
  fields : ∀ c ∈ t.classes, ∀ f ∈ c.fields, OrdinaryName f.name

/-- A node whose name, if it has one, can be read as such. -/
def Node.ReadsName (n : Node) : Prop := ∀ s, n.ident? = some s → isName s = true

/-- A node whose name, if it has one, is ordinary. -/
def Node.Ordinary (n : Node) : Prop := ∀ s, n.ident? = some s → OrdinaryName s

/-- A node with a name that can be read as such. -/
theorem Node.ReadsName.of_name {n : Node} {name : String} (h : n.ident? = some name)
    (hname : isName name = true) : n.ReadsName := by
  intro s hs
  rw [h] at hs
  obtain rfl := Option.some.inj hs
  exact hname

theorem Node.Ordinary.readsName {n : Node} (h : n.Ordinary) : n.ReadsName := fun s hs => (h s hs).1

theorem Node.Ordinary.of_none {n : Node} (h : n.ident? = none) : n.Ordinary := by
  intro s hs
  rw [h] at hs
  cases hs

theorem Node.Ordinary.of_name {n : Node} {name : String} (h : n.ident? = some name)
    (hname : OrdinaryName name) : n.Ordinary := by
  intro s hs
  rw [h] at hs
  obtain rfl := Option.some.inj hs
  exact hname

/-- Ordinary names are admitted where the table and the variables have such names. -/
theorem Env.admits_ordinary {env : Env} (ht : env.symbols.Ordinary)
    (hvars : ∀ v ∈ env.scope.visible, OrdinaryName v.name) : env.Admits Node.Ordinary where
  plain := fun _ hn => .of_none hn.2
  var := by
    intro v hv
    refine .of_name rfl ?_
    rcases hv with hv | ⟨c, -, rfl⟩
    · exact hvars v hv
    · exact VariableName.ordinary (Or.inl rfl)
  helper := by
    have hall : ∀ e ∈ operatorHelpers, OrdinaryName e.1 := by decide
    exact fun e he => .of_name rfl (hall e he)
  function := fun f hf => .of_name rfl (ht.funcs f hf)
  new := fun _ hc _ => .of_name rfl (ht.classes _ (List.mem_of_getElem? hc))
  linked := by
    intro n hop hn
    cases hn with
    | plain hplain =>
        rw [hplain] at hop
        cases hop
    | new _ hc => exact .of_name rfl (ht.classes _ (List.mem_of_getElem? hc))
    | prop hf _ =>
        obtain ⟨cls, hget, -, hmem⟩ := hf.known
        exact .of_name rfl (ht.fields cls (List.mem_of_getElem? hget) _ hmem)
    | helper _ => exact .of_none rfl
    | call _ _ _ _ => exact .of_none rfl
    | methodCall hf _ _ _ _ => exact .of_name rfl (ht.funcs _ hf)

end TypedPhp
