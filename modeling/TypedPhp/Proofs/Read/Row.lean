import TypedPhp.Proofs.Read.Spelled
import TypedPhp.Proofs.Syntax.Subterms

set_option autoImplicit false

/-!
# Expressions on one row

What the text of an expression is made of, whatever the expression, as long as it is written: every
character of it that is a control character comes from a name in the tree (`Print.expr_forall`), and
it begins with a name of the tree, or with a word or sign that no name begins with
(`Node.Every.begins`); so it begins with no word that a statement begins with. Both follow from one
lemma on the ways in which a node is put together from its children (`Print.assemble_yields`).
Neither needs the node to be well formed.
-/

namespace TypedPhp

namespace Read

/-! ## Words of statements -/

/-- The words that statements begin with. -/
def statementWords : List (List Char × Op) :=
  [("if".toList, .ifThen), ("while".toList, .whileLoop), ("do".toList, .doWhile),
   ("switch".toList, .switch), ("return".toList, .returnValue), ("break".toList, .breakJump),
   ("continue".toList, .continueJump), ("echo".toList, .echo)]

/-- The statement that a row begins, by its first word. -/
def statement? (row : List Char) : Option Op := statementWords.lookup (row.takeWhile identChar)

variable {x y rest : List Char} {c : Char}

/-- What stands behind the first word does not matter. -/
theorem firstWord_append (hrest : ∀ c ∈ rest.head?, identChar c = false) :
    (x ++ rest).takeWhile identChar = x.takeWhile identChar := by
  induction x with
  | nil =>
      cases rest with
      | nil => rfl
      | cons c rest => exact List.takeWhile_cons_of_neg (by rw [hrest c rfl]; decide)
  | cons d x ih =>
      rw [List.cons_append, List.takeWhile_cons, List.takeWhile_cons, ih]

theorem statement?_append (hrest : ∀ c ∈ rest.head?, identChar c = false) :
    statement? (x ++ rest) = statement? x := by
  rw [statement?, firstWord_append hrest, statement?]

/-! ## Words of expressions -/

/-- The words that expressions begin with of their own. -/
def ownWords : List (List Char) :=
  ["true".toList, "false".toList, "null".toList, "INF".toList, "NAN".toList, "tuple".toList,
   "new".toList]

/-- Whether a text begins with no name: with one of these words, or with a character that is neither
a blank nor one that a name begins with. -/
def startsOwn : List Char → Bool
  | [] => false
  | c :: x => c != ' ' && (!identStart c || ownWords.contains ((c :: x).takeWhile identChar))

theorem startsOwn_cons (hblank : c ≠ ' ') (hstart : identStart c = false) :
    startsOwn (c :: x) = true := by
  rw [startsOwn, bne_iff_ne.2 hblank, hstart]
  rfl

/-- Such a text may be followed by whatever ends its first word. -/
theorem startsOwn_append (h : startsOwn x = true) (hrest : ∀ c ∈ rest.head?, identChar c = false) :
    startsOwn (x ++ rest) = true := by
  cases x with
  | nil => cases h
  | cons c x =>
      rw [List.cons_append, startsOwn, ← List.cons_append, firstWord_append hrest]
      exact h

/-- The first word of such a text is no other word than these. -/
theorem firstWord_ne {word : List Char} (h : startsOwn x = true)
    (hstart : word.head?.any identStart = true) (hother : word ∉ ownWords) :
    x.takeWhile identChar ≠ word := by
  rintro rfl
  cases x with
  | nil => cases h
  | cons c x =>
      have hc : identStart c = true := by
        rw [List.takeWhile_cons] at hstart
        split at hstart
        · exact hstart
        · cases hstart
      rw [startsOwn, hc, Bool.and_eq_true, Bool.or_eq_true] at h
      rcases h.2 with hnot | hmem
      · cases hnot
      · exact hother (List.contains_iff_mem.1 hmem)

theorem statement?_of_startsOwn (h : startsOwn x = true) : statement? x = none := by
  have hwords : ∀ w ∈ statementWords, w.1.head?.any identStart = true ∧ w.1 ∉ ownWords := by decide
  refine List.lookup_eq_none_iff.2 fun w hw => bne_iff_ne.2 ?_
  exact firstWord_ne h (hwords w hw).1 (hwords w hw).2

/-- How the text of an expression begins: with a word or sign of its own, or with a name that
satisfies a condition. -/
inductive Begins (R : String → Prop) : List Char → Prop where
  | own {x : List Char} : startsOwn x = true → Begins R x
  | name {s : String} {rest : List Char} : isIdentifier s = true → R s →
      (∀ c ∈ rest.head?, identChar c = false) → Begins R (s.toList ++ rest)

/-- What ends the first word may follow. -/
theorem Begins.append {R : String → Prop} (h : Begins R x) {d : Char} (hd : identChar d = false) :
    Begins R (x ++ d :: rest) := by
  have hnext : ∀ c ∈ (d :: rest).head?, identChar c = false := fun c hc => Option.some.inj hc ▸ hd
  cases h with
  | own h => exact .own (startsOwn_append h hnext)
  | @name s more hs hR hmore =>
      rw [List.append_assoc]
      refine .name hs hR fun c hc => ?_
      cases more with
      | nil => exact hnext c hc
      | cons e more => exact hmore c hc

/-! ## Printable texts -/

/-- A character that is no control character. -/
def Printable (c : Char) : Prop := ¬ (c.toNat < 0x20 ∨ c.toNat = 0x7f)

instance (c : Char) : Decidable (Printable c) := inferInstanceAs (Decidable (¬ _))

/-- A text without control characters. -/
def Legible (x : List Char) : Prop := ∀ c ∈ x, Printable c

instance (x : List Char) : Decidable (Legible x) :=
  decidable_of_iff (x.all fun c => decide (Printable c)) (by simp [Legible])

/-- An inert text is legible. -/
theorem Inert.legible (h : Inert x) : Legible x := by
  intro c hc hcontrol
  have hascii : c.toNat < 128 := by omega
  have hbyte : UInt8.ofNat c.toNat ∈ x.flatMap String.utf8EncodeChar := by
    refine List.mem_flatMap.2 ⟨c, hc, ?_⟩
    rw [utf8EncodeChar_ascii hascii]
    exact List.mem_singleton_self _
  have hfalse := h.printable _ hbyte
  rw [isControl_ofNat (by omega), decide_eq_false_iff_not] at hfalse
  exact hfalse hcontrol

theorem printable_of_isDigit (h : c.isDigit = true) : Printable c := by
  rw [Char.isDigit, Bool.and_eq_true] at h
  have hlow : 48 ≤ c.toNat := UInt32.le_iff_toNat_le.1 (of_decide_eq_true h.1)
  have hhigh : c.toNat ≤ 57 := UInt32.le_iff_toNat_le.1 (of_decide_eq_true h.2)
  unfold Printable
  omega

/-- A numeral is legible. -/
theorem Numeral.legible (h : Numeral x) : Legible x := by
  obtain @⟨whole, frac, exp, -, hwhole, hfrac, hexp⟩ := h
  have hdigits : ∀ ds, Digits ds → Legible ds :=
    fun ds hds c hc => printable_of_isDigit (hds c hc)
  refine List.forall_mem_append.2 ⟨hdigits _ hwhole, List.forall_mem_append.2 ⟨?_, ?_⟩⟩
  · cases hfrac with
    | none => exact nofun
    | digits hds => exact List.forall_mem_cons.2 ⟨by decide, hdigits _ hds⟩
  · cases hexp with
    | none => exact nofun
    | positive hds => exact List.forall_mem_cons.2 ⟨by decide, hdigits _ hds⟩
    | negative hds =>
        refine List.forall_mem_cons.2 ⟨by decide, List.forall_mem_cons.2 ⟨by decide, ?_⟩⟩
        exact hdigits _ hds

end Read

open Read

/-! ## Literals -/

/-- A sign may stand before a legible text. -/
theorem Read.Legible.signed {x : List Char} {negative : Prop} [Decidable negative]
    (hx : Legible x) : Legible ((if negative then ['-'] else []) ++ x) := by
  have hminus : Legible ['-'] := by decide
  refine List.forall_mem_append.2 ⟨?_, hx⟩
  split
  · exact hminus
  · exact nofun

/-- The text of a literal is legible. -/
theorem Literal.text_legible (l : Literal) : Legible l.text := by
  cases l with
  | bool v => cases v <;> decide
  | int v =>
      rw [Literal.text, Read.toString_int]
      exact Legible.signed (Read.numeral_toDigits _).legible
  | float x =>
      rw [Literal.text, Double.format]
      split
      · decide
      · refine Legible.signed ?_
        by_cases hm : x.magnitude = Double.infiniteMagnitude
        · rw [hm, Double.formatMagnitude_infinite]
          decide
        · exact (Double.formatMagnitude_numeral hm).numeral.legible
  | string bytes =>
      have hquote : Legible ['"'] := by decide
      refine List.forall_mem_append.2 ⟨List.forall_mem_cons.2 ⟨by decide, ?_⟩, hquote⟩
      exact (Inert.escape bytes).legible

/-- A sign may stand before a text that begins with no name. -/
theorem Read.startsOwn_signed {x : List Char} {negative : Prop} [Decidable negative]
    (hx : startsOwn x = true) : startsOwn ((if negative then ['-'] else []) ++ x) = true := by
  split
  · rfl
  · exact hx

theorem Read.Numeral.startsOwn {x : List Char} (h : Numeral x) : startsOwn x = true := by
  obtain ⟨d, tail, rfl, hd⟩ := h.head
  refine startsOwn_cons ?_ (identStart_of_isDigit hd)
  rintro rfl
  cases hd

/-- The text of a literal begins with no name. -/
theorem Literal.startsOwn_text (l : Literal) : startsOwn l.text = true := by
  cases l with
  | bool v => cases v <;> decide
  | int v =>
      rw [Literal.text, Read.toString_int]
      exact startsOwn_signed (Read.numeral_toDigits _).startsOwn
  | float x =>
      rw [Literal.text, Double.format]
      split
      · decide
      · refine startsOwn_signed ?_
        by_cases hm : x.magnitude = Double.infiniteMagnitude
        · rw [hm, Double.formatMagnitude_infinite]
          decide
        · exact (Double.formatMagnitude_numeral hm).numeral.startsOwn
  | string bytes => rfl

/-! ## Nodes -/

namespace Print

variable {n : Node} {parts : List Written} {x y z : List Char}

/-- A condition on characters holds of texts that are separated by commas. -/
theorem commaList_forall {R : Char → Prop} (hR : ∀ d, Printable d → R d) :
    ∀ {ps : List Written} {x : List Char}, (∀ y, .ok y ∈ ps → ∀ d ∈ y, R d) →
      commaList ps = .ok x → ∀ d ∈ x, R d
  | [], _, _, h => by
      obtain rfl := Except.ok.inj h
      exact List.forall_mem_nil R
  | [p], _, hps, h => by
      obtain rfl : p = .ok _ := h
      exact hps _ List.mem_cons_self
  | p :: q :: ps, _, hps, h => by
      rw [commaList] at h
      · obtain ⟨head, hhead, h⟩ := ok_of_bind h
        obtain ⟨rest, hrest, h⟩ := ok_of_bind h
        obtain rfl := Except.ok.inj h
        subst hhead
        have hcomma : Legible ", ".toList := by decide
        have htail := commaList_forall hR (fun y hy => hps y (List.mem_cons_of_mem _ hy)) hrest
        refine List.forall_mem_append.2 ⟨List.forall_mem_append.2 ⟨?_, ?_⟩, htail⟩
        · exact hps head List.mem_cons_self
        · exact fun d hd => hR d (hcomma d hd)
      · simp

/-- The text of a child stands at its place. -/
theorem getElem?_of_child {i : Nat} (h : child parts i = .ok y) : parts[i]? = some (.ok y) := by
  obtain ⟨part, hpart, rfl⟩ := ok_of_bind h
  unfold elemAt at hpart
  split at hpart
  · rename_i hget
    obtain rfl := Except.ok.inj hpart
    exact hget
  · cases hpart

theorem mem_of_child {i : Nat} (h : child parts i = .ok y) : .ok y ∈ parts :=
  List.mem_of_getElem? (getElem?_of_child h)

/-- Every character of a text is printable, or comes from the name of the node or from a child. -/
def Composed (n : Node) (parts : List Written) (z : List Char) : Prop :=
  ∀ d ∈ z, Printable d ∨ (∃ s, n.ident? = some s ∧ d ∈ s.toList) ∨ ∃ y, .ok y ∈ parts ∧ d ∈ y

namespace Composed

theorem legible (h : Legible z) : Composed n parts z := fun d hd => Or.inl (h d hd)

theorem name {s : String} (h : n.ident? = some s) : Composed n parts s.toList :=
  fun _ hd => Or.inr (Or.inl ⟨s, h, hd⟩)

theorem part (h : .ok y ∈ parts) : Composed n parts y := fun _ hd => Or.inr (Or.inr ⟨y, h, hd⟩)

theorem append (hx : Composed n parts x) (hy : Composed n parts y) : Composed n parts (x ++ y) :=
  List.forall_mem_append.2 ⟨hx, hy⟩

theorem cons {c : Char} (hc : Printable c) (hx : Composed n parts x) : Composed n parts (c :: x) :=
  List.forall_mem_cons.2 ⟨Or.inl hc, hx⟩

theorem closed {c : Char} (hx : Composed n parts x) (hc : Printable c) :
    Composed n parts (x ++ [c]) :=
  hx.append (cons hc nofun)

theorem child {i : Nat} (h : child parts i = .ok y) : Composed n parts y := part (mem_of_child h)

/-- The name of the node. -/
theorem needName (h : needName n = .ok z) : Composed n parts z := by
  unfold Print.needName at h
  split at h
  · rename_i s hs
    obtain rfl := Except.ok.inj h
    exact .name hs
  · cases h

theorem commaList {ps : List Written} (hps : ∀ p ∈ ps, p ∈ parts) (h : commaList ps = .ok x) :
    Composed n parts x :=
  commaList_forall (fun _ hd => Or.inl hd) (fun _ hy => part (hps _ hy)) h

/-- The parts of an interpolated string. -/
theorem interpolation : ∀ {ns : List Node} {ps : List Written} {x : List Char},
    (∀ p ∈ ps, p ∈ parts) → interpolation ns ps = .ok x → Composed n parts x
  | [], _, _, _, h => by
      obtain rfl := Except.ok.inj h
      exact nofun
  | _ :: _, [], _, _, h => by
      obtain rfl := Except.ok.inj h
      exact nofun
  | m :: ns, p :: ps, x, hps, h => by
      have hrest : ∀ {head : List Char}, Composed n parts head → (do
          let rest ← Print.interpolation ns ps
          return head ++ rest) = .ok x → Composed n parts x := by
        intro head hhead h
        obtain ⟨rest, hrest, h⟩ := ok_of_bind h
        obtain rfl := Except.ok.inj h
        exact hhead.append (interpolation (fun p hp => hps p (List.mem_cons_of_mem _ hp)) hrest)
      rw [Print.interpolation] at h
      split at h
      · obtain ⟨v, hv, h⟩ := ok_of_bind h
        subst hv
        exact hrest (cons (by decide) ((part (hps _ List.mem_cons_self)).closed (by decide))) h
      · split at h
        · exact hrest (legible (Inert.escape _).legible) h
        · cases h

end Composed

/-- The spelling of an operator is legible. -/
theorem needToken_legible {op : Op} (h : needToken op = .ok z) : Legible z := by
  have hall : Legible (op.token?.getD "").toList := by cases op <;> decide
  unfold needToken at h
  split at h
  · rename_i s htoken
    obtain rfl := Except.ok.inj h
    rw [htoken] at hall
    exact hall
  · cases h

theorem castKeyword_legible {t : Ty} {keyword : String} (h : t.castKeyword? = some keyword) :
    Legible keyword.toList := by
  have hident := (Ty.castKeyword_cases h).1
  exact (Inert.identifier hident).legible

/-- How the text of a node begins: with text of its own, with a child whose last word ends there,
or with a name alone. -/
inductive Assembled (n : Node) (parts : List Written) : List Char → Prop where
  | own {x : List Char} : Composed n parts x → startsOwn x = true → Assembled n parts x
  | child {y z : List Char} {c : Char} : child parts 0 = .ok y → Composed n parts (c :: z) →
      identChar c = false → Assembled n parts (y ++ c :: z)
  | name {s : String} : n.op = .name → n.ident? = some s → Assembled n parts s.toList

namespace Assembled

theorem head {c : Char} (hc : c ≠ ' ' ∧ identStart c = false) (h : Composed n parts (c :: z)) :
    Assembled n parts (c :: z) :=
  .own h (startsOwn_cons hc.1 hc.2)

/-- A sign before its operand. -/
theorem signed {c : Char} {sign : List Char} (hc : c ≠ ' ' ∧ identStart c = false)
    (hsign : Legible (c :: sign)) (hy : Composed n parts y) :
    Assembled n parts (signed (c :: sign) y) := by
  unfold Print.signed
  split
  · exact head hc ((Composed.legible hsign).append (hy.cons (by decide)))
  · exact head hc ((Composed.legible hsign).append hy)

end Assembled

/-- A text satisfies a condition, if it is written. -/
def Yields (w : Written) (P : List Char → Prop) : Prop := ∀ x, w = .ok x → P x

namespace Yields

variable {w : Written} {k : List Char → Written} {P Q : List Char → Prop}

theorem pure (h : P x) : Yields (pure x) P := fun _ heq => Except.ok.inj heq ▸ h

theorem throw {fault : Fault} : Yields (throw fault) P := fun _ heq => nomatch heq

theorem bind (hw : Yields w Q) (hk : ∀ y, Q y → Yields (k y) P) : Yields (w >>= k) P := by
  intro x h
  obtain ⟨y, hy, h⟩ := ok_of_bind h
  exact hk y (hw y hy) x h

end Yields

/-! What comes first in the text of a node, before what is put together from the rest. -/

namespace Assembled

variable {k : List Char → Written}

theorem bindFirst (h : ∀ y, Print.child parts 0 = .ok y → Yields (k y) (Assembled n parts)) :
    Yields (Print.child parts 0 >>= k) (Assembled n parts) :=
  Yields.bind (fun _ hy => hy) h

theorem bindChild {i : Nat} (h : ∀ y, Composed n parts y → Yields (k y) (Assembled n parts)) :
    Yields (Print.child parts i >>= k) (Assembled n parts) :=
  Yields.bind (fun _ hy => .child hy) h

theorem bindName (h : ∀ s, Composed n parts s → Yields (k s) (Assembled n parts)) :
    Yields (needName n >>= k) (Assembled n parts) :=
  Yields.bind (fun _ hs => .needName hs) h

theorem bindToken {op : Op} (h : ∀ s, Composed n parts s → Yields (k s) (Assembled n parts)) :
    Yields (needToken op >>= k) (Assembled n parts) :=
  Yields.bind (fun _ hs => .legible (needToken_legible hs)) h

theorem bindList {ps : List Written} (hps : ∀ p ∈ ps, p ∈ parts)
    (h : ∀ xs, Composed n parts xs → Yields (k xs) (Assembled n parts)) :
    Yields (commaList ps >>= k) (Assembled n parts) :=
  Yields.bind (fun _ hx => .commaList hps hx) h

theorem bindInterpolation (h : ∀ x, Composed n parts x → Yields (k x) (Assembled n parts)) :
    Yields (interpolation n.args parts >>= k) (Assembled n parts) :=
  Yields.bind (fun _ hx => .interpolation (fun _ hp => hp) hx) h

end Assembled

/-- Literals and lists begin with text of their own. -/
theorem literal_yields (hop : n.op ∈ [.null, .boolLit, .intLit, .floatLit, .stringLit, .interpolated,
    .arrayLit, .tupleLit]) : Yields (assemble n parts) (Assembled n parts) := by
  obtain ⟨op, args, payload, type⟩ := n
  replace hop : op ∈ _ := hop
  cases op with
  | null => exact .pure (.own (.legible (by decide)) (by decide))
  | boolLit | intLit | floatLit | stringLit =>
      simp only [assemble, Node.op]
      split
      · rename_i l _
        exact .pure (.own (.legible l.text_legible) l.startsOwn_text)
      · exact .throw
  | interpolated =>
      refine Assembled.bindInterpolation fun y hy => .pure ?_
      exact .head (by decide) ((hy.closed (by decide)).cons (by decide))
  | arrayLit =>
      refine Assembled.bindList (fun _ hp => hp) fun elems helems => .pure ?_
      exact .head (by decide) ((helems.closed (by decide)).cons (by decide))
  | tupleLit =>
      refine Assembled.bindList (fun _ hp => hp) fun elems helems => .pure ?_
      have hword : Legible "tuple(".toList := by decide
      exact .own (((Composed.legible hword).append helems).closed (by decide)) rfl
  | _ => exact absurd hop (by decide)

/-- What has a name begins with it, with text of its own or with the object that it belongs to. -/
theorem named_yields (hop : n.op ∈ [.var, .name, .new, .prop, .methodCall]) :
    Yields (assemble n parts) (Assembled n parts) := by
  obtain ⟨op, args, payload, type⟩ := n
  replace hop : op ∈ _ := hop
  have harrow : Legible "->".toList := by decide
  cases op with
  | var => exact Assembled.bindName fun s hs => .pure (.head (by decide) (hs.cons (by decide)))
  | name =>
      simp only [assemble, Node.op, needName]
      split
      · rename_i s hs
        exact .pure (.name rfl hs)
      · exact .throw
  | new =>
      refine Assembled.bindName fun s hs => .pure ?_
      have hword : Legible "new ".toList := by decide
      have hend : Legible "()".toList := by decide
      exact .own (((Composed.legible hword).append hs).append (.legible hend)) rfl
  | prop =>
      refine Assembled.bindFirst fun y hy => Assembled.bindName fun s hs => .pure ?_
      rw [List.append_assoc]
      exact .child hy ((Composed.legible harrow).append hs) (by decide)
  | methodCall =>
      refine Assembled.bindFirst fun y hy => Assembled.bindName fun s hs =>
        Assembled.bindList (fun _ hp => List.mem_of_mem_drop hp) fun xs hxs => .pure ?_
      rw [List.append_assoc, List.append_assoc]
      refine .child hy ((Composed.legible harrow).append (hs.append ?_)) (by decide)
      exact (hxs.closed (by decide)).cons (by decide)
  | _ => exact absurd hop (by decide)

/-- Calls of functions, elements and the operators with places of their own begin with their first
child, if they do not begin with a bracket. -/
theorem mixfix_yields (hop : n.op ∈ [.parens, .call, .index, .cast, .ternary, .assign]) :
    Yields (assemble n parts) (Assembled n parts) := by
  obtain ⟨op, args, payload, type⟩ := n
  replace hop : op ∈ _ := hop
  cases op with
  | parens =>
      refine Assembled.bindChild fun y hy => .pure ?_
      exact .head (by decide) ((hy.closed (by decide)).cons (by decide))
  | call =>
      refine Assembled.bindFirst fun y hy =>
        Assembled.bindList (fun _ hp => List.mem_of_mem_drop hp) fun xs hxs => .pure ?_
      exact .child hy ((hxs.closed (by decide)).cons (by decide)) (by decide)
  | index =>
      refine Assembled.bindFirst fun y hy => Assembled.bindChild fun key hkey => .pure ?_
      exact .child hy ((hkey.closed (by decide)).cons (by decide)) (by decide)
  | cast =>
      simp only [assemble, Node.op]
      split
      · exact .throw
      · rename_i keyword hkeyword
        obtain ⟨t, -, ht⟩ := Option.bind_eq_some_iff.1 hkeyword
        have hword := castKeyword_legible ht
        refine Assembled.bindChild fun y hy => .pure ?_
        refine .head (by decide) (.cons (by decide) ?_)
        exact (Composed.legible hword).append (hy.cons (by decide))
  | ternary =>
      refine Assembled.bindFirst fun y hy => Assembled.bindChild fun u hu =>
        Assembled.bindChild fun v hv => .pure ?_
      have hthen : Legible " ? ".toList := by decide
      have helse : Legible " : ".toList := by decide
      rw [List.append_assoc, List.append_assoc, List.append_assoc]
      exact .child hy ((Composed.legible hthen).append
        (hu.append ((Composed.legible helse).append hv))) (by decide)
  | assign =>
      refine Assembled.bindFirst fun y hy => Assembled.bindChild fun z hz => .pure ?_
      have hsign : Legible " = ".toList := by decide
      rw [List.append_assoc]
      exact .child hy ((Composed.legible hsign).append hz) (by decide)
  | _ => exact absurd hop (by decide)

/-- Whatever the node, its text is put together in one of three ways. -/
theorem assemble_yields (n : Node) (parts : List Written) :
    Yields (assemble n parts) (Assembled n parts) := by
  obtain ⟨op, args, payload, type⟩ := n
  cases op with
  | null | boolLit | intLit | floatLit | stringLit | interpolated | arrayLit | tupleLit =>
      exact literal_yields (by simp [Node.op])
  | var | name | new | prop | methodCall => exact named_yields (by simp [Node.op])
  | parens | call | index | cast | ternary | assign => exact mixfix_yields (by simp [Node.op])
  | assignModify =>
      simp only [assemble, Node.op]
      split
      · refine Assembled.bindFirst fun y hy => Assembled.bindToken fun token htoken =>
          Assembled.bindChild fun z hz => .pure ?_
        have hsign : Legible "= ".toList := by decide
        refine .child hy ?_ (by decide)
        exact ((htoken.append (.legible hsign)).append hz).cons (by decide)
      · exact .throw
  | postInc | postDec =>
      refine Assembled.bindFirst fun y hy => .bind (fun token htoken => htoken) fun token htoken =>
        .pure ?_
      have hlegible := needToken_legible htoken
      obtain rfl := Except.ok.inj htoken
      exact .child hy (.legible hlegible) (by decide)
  | not | negation | unaryPlus | bitNot | preInc | preDec =>
      refine .bind (fun sign hsign => hsign) fun sign hsign => Assembled.bindChild fun y hy =>
        .pure ?_
      have hlegible := needToken_legible hsign
      obtain rfl := Except.ok.inj hsign
      exact .signed (by decide) hlegible hy
  | _ =>
      simp only [assemble, Node.op]
      split
      · refine Assembled.bindFirst fun y hy => Assembled.bindToken fun token htoken =>
          Assembled.bindChild fun z hz => .pure ?_
        exact .child hy ((htoken.append (hz.cons (by decide))).cons (by decide)) (by decide)
      · exact .throw

/-- A condition on characters holds of an expression if it holds of printable characters and of
those of every name in it. -/
theorem expr_forall {R : Char → Prop} (hR : ∀ d, Printable d → R d) : ∀ {n : Node} {x : List Char},
    (n.Every fun m => ∀ s, m.ident? = some s → ∀ d ∈ s.toList, R d) → expr n = .ok x → ∀ d ∈ x, R d
  | .mk op args payload type, x, hnames, h => by
      rw [expr, exprEach_eq_map] at h
      have hcomposed : ∀ {z : List Char},
          Composed (.mk op args payload type) (args.map expr) z → ∀ d ∈ z, R d := by
        intro z hz d hd
        rcases hz d hd with hprintable | ⟨s, hs, hd⟩ | ⟨y, hy, hd⟩
        · exact hR d hprintable
        · exact hnames.root s hs d hd
        · obtain ⟨m, hm, hy⟩ := List.mem_map.1 hy
          exact expr_forall hR (hnames.child hm) hy d hd
      cases assemble_yields _ _ _ h with
      | own hx _ => exact hcomposed hx
      | child hy hz _ => exact List.forall_mem_append.2 ⟨hcomposed (.child hy), hcomposed hz⟩
      | name _ hs => exact hnames.root _ hs

/-- A control character in the text of an expression stands in one of its names. -/
theorem exists_name_of_control {n : Node} {x : List Char} (h : expr n = .ok x) {d : Char}
    (hd : d ∈ x) (hcontrol : ¬ Printable d) :
    ∃ m ∈ n.subterms, ∃ s, m.ident? = some s ∧ d ∈ s.toList := by
  have hall := expr_forall
    (R := fun d => ¬ Printable d → ∃ m ∈ n.subterms, ∃ s, m.ident? = some s ∧ d ∈ s.toList)
    (fun _ hprintable hnot => absurd hprintable hnot)
    (fun m hm s hs d hd _ => ⟨m, hm, s, hs, hd⟩) h
  exact hall d hd hcontrol

theorem expr_legible {n : Node} {x : List Char}
    (hn : n.Every fun m => ∀ s, m.ident? = some s → isIdentifier s = true) (h : expr n = .ok x) :
    Legible x :=
  expr_forall (fun _ hd => hd) (hn.mono fun _ hm s hs => (Inert.identifier (hm s hs)).legible) h

end Print

/-- A node whose name, if it has one, is an identifier; if it is written alone, it is no word that a
statement begins with. -/
def Node.Named (n : Node) : Prop :=
  ∀ s, n.ident? = some s →
    isIdentifier s = true ∧ (n.op = .name → statement? s.toList = none)

theorem Node.Named.of_none {n : Node} (h : n.ident? = none) : n.Named := by
  intro s hs
  rw [h] at hs
  cases hs

namespace Node.Every

variable {n : Node} {x : List Char}

/-- An expression with names is legible. -/
theorem legible (hn : n.Every Named) (h : Print.expr n = .ok x) : Legible x :=
  Print.expr_legible (hn.mono fun _ hm s hs => (hm s hs).1) h

theorem newline_notMem (hn : n.Every Named) (h : Print.expr n = .ok x) : '\n' ∉ x :=
  fun hmem => absurd (hn.legible h _ hmem) (by decide)

/-- How an expression with names begins: with a word or sign of its own, or with the name of a
node that is a name alone. -/
theorem begins {R : String → Prop} {n : Node} {x : List Char}
    (hn : n.Every fun m => ∀ s, m.ident? = some s → isIdentifier s = true ∧ (m.op = .name → R s))
    (h : Print.expr n = .ok x) : Begins R x := by
  -- A child that is written first decides how the text begins, so the induction goes down to it.
  induction n using inductionOn generalizing x with
  | node op args payload type ih =>
      rw [Print.expr, Print.exprEach_eq_map] at h
      cases Print.assemble_yields _ _ _ h with
      | own _ hown => exact .own hown
      | child hy _ hc =>
          obtain ⟨m, hm, hy⟩ := List.mem_map.1 (Print.mem_of_child hy)
          exact (ih m hm (hn.child hm) hy).append hc
      | @name s hop hs =>
          obtain ⟨hident, hR⟩ := hn.root s hs
          have hname : Begins R (s.toList ++ []) := .name hident (hR hop) (by simp)
          rwa [List.append_nil] at hname

/-- An expression with names begins no statement. -/
theorem begins_none (hn : n.Every Named) (h : Print.expr n = .ok x) : statement? x = none := by
  have hbegins : Begins (fun s => statement? s.toList = none) x := hn.begins h
  cases hbegins with
  | own hown => exact statement?_of_startsOwn hown
  | name _ hnone hrest =>
      rw [statement?_append hrest]
      exact hnone

end Node.Every

end TypedPhp
