import Mathlib.Data.List.Forall2
import TypedPhp.Print.Expr
import TypedPhp.Proofs.Read.Token

set_option autoImplicit false

/-!
# Tokens of printed texts

`Read.Lexes x ts` says that a text is read as certain tokens wherever it stands in an expression.
The texts of expressions are put together from the texts of their parts in a few ways, and each of
them keeps to this: a sign is kept apart from another sign by a blank, an infix operator stands
between blanks, and after a word, a variable or a number nothing follows that it could go on with.
-/

namespace TypedPhp.Read

/-- A text begins with certain tokens, and then comes the rest. -/
def Reads (text : List Char) (ts : List Token) (rest : List Char) : Prop :=
  lex text = (lex rest).map (ts ++ ·)

/-- What may follow an expression: nothing, or one of the characters that end its last token. -/
def exprEnds : List Char := [' ', ')', ']', ',', '[', '(', '-', '+', ';', '\x7d']

/-- A text that may follow an expression. -/
def EndsExpr (rest : List Char) : Prop := ∀ c ∈ rest.head?, c ∈ exprEnds

/-- Whether an expression can begin with a character. -/
def startsExpr (c : Char) : Bool :=
  identStart c || c.isDigit || ['(', '[', '"', '$', '!', '~', '-', '+'].contains c

/-- A text is read as certain tokens wherever an expression may stand. It is also not taken for
the type of a cast when it stands after a parenthesis. -/
structure Lexes (x : List Char) (ts : List Token) : Prop where
  starts : ∃ c tail, x = c :: tail ∧ startsExpr c = true
  uncast : ∀ rest, EndsExpr rest → cast? (x ++ rest) = none
  reads : ∀ rest, EndsExpr rest → Reads (x ++ rest) ts rest

variable {text mid rest x y z : List Char} {ts us vs : List Token} {s : String}

/-! ## Pieces of texts -/

theorem Reads.refl (text : List Char) : Reads text [] text := by
  rw [Reads]
  exact Option.map_id_apply.symm

theorem Reads.trans (h : Reads text ts mid) (h' : Reads mid us rest) :
    Reads text (ts ++ us) rest := by
  rw [Reads, h, h', Option.map_map]
  congr 1
  funext vs
  exact (List.append_assoc ts us vs).symm

theorem Reads.blank (h : Reads text ts rest) : Reads (' ' :: text) ts rest := by
  rw [Reads, lex_blank]
  exact h

theorem EndsExpr.nil : EndsExpr [] := by
  intro c hc
  cases hc

theorem EndsExpr.word (h : EndsExpr rest) : ∀ c ∈ rest.head?, identChar c = false := by
  have hall : exprEnds.all (fun c => !identChar c) = true := by decide
  intro c hc
  simpa using List.all_eq_true.1 hall c (h c hc)

/-- What follows an expression ends a number. -/
theorem EndsExpr.number (h : EndsExpr rest) : EndsNumber rest := by
  have hall : exprEnds.all (fun c => !c.isDigit && (c != '.' && (c != 'e' && c != 'E'))) = true := by
    decide
  intro c hc
  have hends := List.all_eq_true.1 hall c (h c hc)
  simpa only [Bool.and_eq_true, Bool.not_eq_true', bne_iff_ne] using hends

theorem EndsExpr.cons {c : Char} (h : c ∈ exprEnds) (rest : List Char) : EndsExpr (c :: rest) := by
  intro d hd
  obtain rfl := Option.some.inj hd
  exact h

/-- The symbols that no character continues. -/
def closedSymbols : List String := [")", "[", "]", ",", "->", "++", "--"]

/-- A symbol that no character continues. -/
theorem reads_closed (hs : s ∈ closedSymbols) (rest : List Char) :
    Reads (s.toList ++ rest) [.symbol s] rest := by
  have hsymbol : ∀ s ∈ closedSymbols, s ∈ symbols := by decide
  have hnone : ∀ s ∈ closedSymbols, continuations s = [] := by decide
  have hother : ∀ s ∈ closedSymbols, ¬ (s = "." ∨ s = "$") ∧ s ≠ "(" := by decide
  refine lex_symbol (hsymbol s hs) (fun c _ => ?_) (fun h => absurd h (hother s hs).1)
    (fun h => absurd h (hother s hs).2)
  rw [hnone s hs]
  exact List.not_mem_nil

/-- A symbol before a blank. -/
theorem reads_spaced (hs : s ∈ symbols) (hopen : s ≠ "(") (rest : List Char) :
    Reads (s.toList ++ ' ' :: rest) [.symbol s] rest := by
  have hblank : ∀ t ∈ symbols, ' ' ∉ t.toList := by decide
  have hnext : ∀ c ∈ (' ' :: rest).head?, c ∉ continuations s := by
    intro c hc hmem
    obtain rfl := Option.some.inj hc
    obtain ⟨t, ht, hmem⟩ := mem_symbol_of_continuation hmem
    exact hblank t ht hmem
  have hread := lex_symbol hs hnext (fun _ => rfl) fun h => absurd h hopen
  rw [lex_blank] at hread
  exact hread

/-- A parenthesis that begins no cast. -/
theorem reads_open (h : cast? rest = none) : Reads ('(' :: rest) [.symbol "("] rest := by
  have hnone : continuations "(" = [] := by decide
  refine lex_symbol (s := "(") (by decide) (fun c _ => ?_) (fun h => ?_) fun _ => h
  · rw [hnone]
    exact List.not_mem_nil
  · exact absurd h (by decide)

theorem reads_word (hs : isIdentifier s = true) (hrest : EndsExpr rest) :
    Reads (s.toList ++ rest) [.word s] rest :=
  lex_word hs hrest.word

/-! ## Single tokens -/

namespace Lexes

theorem uncast_of_head {c : Char} (hc : isCastBlank c = false) (hstart : identStart c = false)
    (tail : List Char) : ∀ rest, EndsExpr rest → cast? (c :: tail ++ rest) = none :=
  fun _ _ => cast?_of_head hc hstart _

/-- A word that names no type. -/
theorem word (hs : isIdentifier s = true) (hcast : castWords.lookup (lower s) = none) :
    Lexes s.toList [.word s] where
  starts := by
    obtain ⟨c, tail, heq, hstart, -⟩ := exists_of_isIdentifier hs
    refine ⟨c, tail, heq, ?_⟩
    rw [startsExpr, hstart]
    rfl
  uncast := fun rest hrest => cast?_word hs hcast hrest.word
  reads := fun rest hrest => reads_word hs hrest

theorem var (hs : isIdentifier s = true) : Lexes ('$' :: s.toList) [.var s] where
  starts := ⟨_, _, rfl, rfl⟩
  uncast := uncast_of_head rfl rfl _
  reads := fun _ hrest => lex_var hs hrest.word

/-- A number. -/
theorem number (hx : Numeral x) : Lexes x [.number x] where
  starts := by
    obtain ⟨d, tail, heq, hd⟩ := hx.head
    refine ⟨d, tail, heq, ?_⟩
    rw [startsExpr, hd, Bool.or_true, Bool.true_or]
  uncast := by
    obtain ⟨d, tail, rfl, hd⟩ := hx.head
    refine uncast_of_head ?_ (identStart_of_isDigit hd) tail
    rw [Bool.eq_false_iff]
    intro hblank
    simp only [isCastBlank, Bool.or_eq_true, beq_iff_eq] at hblank
    rcases hblank with rfl | rfl
    all_goals exact absurd hd (by decide)
  reads := fun rest hrest => lex_number hx hrest.number

/-- A quoted string. -/
theorem quoted {parts : List StringPart}
    (hnames : ∀ name, .var name ∈ parts → isIdentifier name = true) :
    Lexes ('"' :: (parts.flatMap StringPart.spelling ++ ['"'])) [.quoted (joinParts parts)] where
  starts := ⟨_, _, rfl, rfl⟩
  uncast := uncast_of_head rfl rfl _
  reads := by
    intro rest _
    rw [List.cons_append, List.append_assoc]
    exact lex_quoted hnames rest

/-! ## Brackets -/

/-- An expression in parentheses. -/
theorem parens (h : Lexes x ts) :
    Lexes ('(' :: (x ++ [')'])) (.symbol "(" :: (ts ++ [.symbol ")"])) where
  starts := ⟨_, _, rfl, rfl⟩
  uncast := uncast_of_head rfl rfl _
  reads := by
    intro rest _
    have hends : EndsExpr (')' :: rest) := .cons (by decide) rest
    rw [List.cons_append, List.append_assoc]
    exact (reads_open (h.uncast _ hends)).trans
      ((h.reads _ hends).trans (reads_closed (s := ")") (by decide) rest))

end Lexes

/-! ## Lists -/

/-- Texts separated by commas. -/
def commaText : List (List Char) → List Char
  | [] => []
  | [x] => x
  | x :: xs => x ++ ", ".toList ++ commaText xs

/-- Tokens separated by commas. -/
def commaTokens : List (List Token) → List Token
  | [] => []
  | [ts] => ts
  | ts :: tss => ts ++ .symbol "," :: commaTokens tss

variable {xs : List (List Char)} {tss : List (List Token)}

/-- Expressions separated by commas, up to a closing bracket. -/
theorem reads_list {c : Char} (hc : c ∈ exprEnds) (h : List.Forall₂ Lexes xs tss)
    (rest : List Char) : Reads (commaText xs ++ c :: rest) (commaTokens tss) (c :: rest) := by
  induction h with
  | nil => exact .refl _
  | @cons x ts xs tss hx hxs ih =>
      cases hxs with
      | nil => exact hx.reads _ (.cons hc rest)
      | @cons y us ys uss hy hys =>
          have htext : commaText (x :: y :: ys) ++ c :: rest =
              x ++ (",".toList ++ ' ' :: (commaText (y :: ys) ++ c :: rest)) := by
            simp [commaText]
          rw [htext]
          exact (hx.reads _ (.cons (by decide) _)).trans
            ((reads_closed (s := ",") (by decide) _).trans ih.blank)

/-- No cast begins before a list of arguments. -/
theorem uncast_list (h : List.Forall₂ Lexes xs tss) (rest : List Char) :
    cast? (commaText xs ++ ')' :: rest) = none := by
  cases h with
  | nil => exact cast?_of_head rfl rfl rest
  | @cons x ts xs tss hx hxs =>
      cases hxs with
      | nil => exact hx.uncast _ (.cons (by decide) rest)
      | @cons y us ys uss hy hys =>
          rw [commaText, List.append_assoc, List.append_assoc]
          · exact hx.uncast _ (.cons (by decide) _)
          · exact fun h => nomatch h

namespace Lexes

/-- A list in brackets. -/
theorem array (h : List.Forall₂ Lexes xs tss) :
    Lexes ('[' :: (commaText xs ++ [']'])) (.symbol "[" :: (commaTokens tss ++ [.symbol "]"])) where
  starts := ⟨_, _, rfl, rfl⟩
  uncast := uncast_of_head rfl rfl _
  reads := by
    intro rest _
    rw [List.cons_append, List.append_assoc]
    exact (reads_closed (s := "[") (by decide) _).trans
      ((reads_list (by decide) h rest).trans (reads_closed (s := "]") (by decide) rest))

/-- An expression goes on with more tokens, the first of which cannot belong to its last one. -/
theorem extend {c : Char} (h : Lexes x ts) (hc : c ∈ exprEnds)
    (hreads : ∀ rest, EndsExpr rest → Reads (c :: y ++ rest) us rest) :
    Lexes (x ++ c :: y) (ts ++ us) where
  starts := by
    obtain ⟨d, tail, rfl, hd⟩ := h.starts
    exact ⟨d, tail ++ c :: y, rfl, hd⟩
  uncast := by
    intro rest _
    rw [List.append_assoc]
    exact h.uncast _ (.cons hc _)
  reads := by
    intro rest hrest
    rw [List.append_assoc]
    exact (h.reads _ (.cons hc _)).trans (hreads rest hrest)

theorem call (h : Lexes x ts) (hxs : List.Forall₂ Lexes xs tss) :
    Lexes (x ++ '(' :: (commaText xs ++ [')']))
      (ts ++ .symbol "(" :: (commaTokens tss ++ [.symbol ")"])) := by
  refine h.extend (by decide) fun rest _ => ?_
  rw [List.cons_append, List.append_assoc]
  exact (reads_open (uncast_list hxs rest)).trans
    ((reads_list (by decide) hxs rest).trans (reads_closed (s := ")") (by decide) rest))

theorem prop (h : Lexes x ts) (hs : isIdentifier s = true) :
    Lexes (x ++ "->".toList ++ s.toList) (ts ++ [.symbol "->", .word s]) := by
  rw [List.append_assoc]
  refine h.extend (c := '-') (by decide) fun rest hrest => ?_
  exact (reads_closed (s := "->") (by decide) _).trans (reads_word hs hrest)

theorem index (h : Lexes x ts) (hk : Lexes y us) :
    Lexes (x ++ '[' :: (y ++ [']'])) (ts ++ .symbol "[" :: (us ++ [.symbol "]"])) := by
  refine h.extend (by decide) fun rest _ => ?_
  rw [List.cons_append, List.append_assoc]
  exact (reads_closed (s := "[") (by decide) _).trans
    ((hk.reads _ (.cons (by decide) rest)).trans (reads_closed (s := "]") (by decide) rest))

/-- A new object. -/
theorem newObject (hs : isIdentifier s = true) : Lexes ("new ".toList ++ s.toList ++ "()".toList)
    [.word "new", .word s, .symbol "(", .symbol ")"] := by
  have hnew : Lexes "new".toList [.word "new"] := word (by decide) (by decide)
  have htext : "new ".toList ++ s.toList ++ "()".toList =
      "new".toList ++ ' ' :: (s.toList ++ "()".toList) := by simp
  rw [htext]
  refine hnew.extend (by decide) fun rest _ => ?_
  rw [List.cons_append, List.append_assoc]
  have hbrackets : Reads ("()".toList ++ rest) [.symbol "(", .symbol ")"] rest :=
    (reads_open (cast?_of_head rfl rfl rest)).trans (reads_closed (s := ")") (by decide) rest)
  exact ((reads_word hs (.cons (by decide) _)).trans hbrackets).blank

/-- A cast. -/
theorem cast {keyword : String} (hs : isIdentifier s = true)
    (hkeyword : castWords.lookup (lower s) = some keyword) (h : Lexes x ts) :
    Lexes ('(' :: (s.toList ++ ')' :: x)) (.cast keyword :: ts) where
  starts := ⟨_, _, rfl, rfl⟩
  uncast := uncast_of_head rfl rfl _
  reads := by
    intro rest hrest
    have hcast : Reads ('(' :: (s.toList ++ ')' :: (x ++ rest))) [.cast keyword] (x ++ rest) :=
      lex_cast hs hkeyword _
    rw [List.cons_append, List.append_assoc]
    exact hcast.trans (h.reads rest hrest)

theorem infixSymbol (h : Lexes x ts) (hs : s ∈ symbols) (hopen : s ≠ "(") (h' : Lexes y us) :
    Lexes (x ++ ' ' :: (s.toList ++ ' ' :: y)) (ts ++ .symbol s :: us) := by
  refine h.extend (by decide) fun rest hrest => ?_
  rw [List.cons_append, List.append_assoc]
  exact ((reads_spaced hs hopen _).trans (h'.reads rest hrest)).blank

theorem infixWord (h : Lexes x ts) (hs : isIdentifier s = true) (h' : Lexes y us) :
    Lexes (x ++ ' ' :: (s.toList ++ ' ' :: y)) (ts ++ .word s :: us) := by
  refine h.extend (by decide) fun rest hrest => ?_
  rw [List.cons_append, List.append_assoc]
  exact ((reads_word hs (.cons (by decide) _)).trans (h'.reads rest hrest).blank).blank

/-- A choice between two expressions. -/
theorem ternary (h : Lexes x ts) (h' : Lexes y us) (h'' : Lexes z vs) :
    Lexes (x ++ " ? ".toList ++ y ++ " : ".toList ++ z)
      (ts ++ .symbol "?" :: (us ++ .symbol ":" :: vs)) := by
  have htext : x ++ " ? ".toList ++ y ++ " : ".toList ++ z =
      x ++ ' ' :: ("?".toList ++ ' ' :: (y ++ ' ' :: (":".toList ++ ' ' :: z))) := by simp
  rw [htext]
  exact h.infixSymbol (by decide) (by decide) (h'.infixSymbol (by decide) (by decide) h'')

/-- A step after a variable. -/
theorem postfixed (h : Lexes x ts) (hs : s ∈ ["++", "--"]) :
    Lexes (x ++ s.toList) (ts ++ [.symbol s]) := by
  simp only [List.mem_cons, List.not_mem_nil, or_false] at hs
  rcases hs with rfl | rfl
  · exact h.extend (c := '+') (by decide) fun rest _ => reads_closed (s := "++") (by decide) rest
  · exact h.extend (c := '-') (by decide) fun rest _ => reads_closed (s := "--") (by decide) rest

end Lexes

/-! ## Signs -/

/-- The operators that stand before their operand. -/
def signs : List String := ["!", "-", "+", "~", "++", "--"]

/-- A sign is read on its own if it is none, or stands before none, of those that grow together. -/
theorem reads_sign (hs : s ∈ signs) {c : Char} (hc : startsExpr c = true)
    (hapart : ¬ ((s = "-" ∨ s = "+") ∧ (c = '-' ∨ c = '+'))) (rest : List Char) :
    Reads (s.toList ++ c :: rest) [.symbol s] (c :: rest) := by
  have hsymbol : ∀ s ∈ signs, s ∈ symbols := by decide
  have hother : ∀ s ∈ signs, ¬ (s = "." ∨ s = "$") ∧ s ≠ "(" := by decide
  have hall : ∀ s ∈ signs, (continuations s).all (fun c => !startsExpr c ||
      (s == "-" || s == "+") && (c == '-' || c == '+')) = true := by decide
  have hcontinued : c ∈ continuations s → (s = "-" ∨ s = "+") ∧ (c = '-' ∨ c = '+') := by
    intro hmem
    have hboth := List.all_eq_true.1 (hall s hs) c hmem
    rw [hc, Bool.not_true, Bool.false_or] at hboth
    simpa only [Bool.and_eq_true, Bool.or_eq_true, beq_iff_eq] using hboth
  refine lex_symbol (hsymbol s hs) (fun d hd => ?_) (fun h => absurd h (hother s hs).1)
    (fun h => absurd h (hother s hs).2)
  obtain rfl := Option.some.inj hd
  exact fun hmem => hapart (hcontinued hmem)

/-- A sign begins an expression, and no cast. -/
theorem sign_head (hs : s ∈ signs) : ∃ c tail, s.toList = c :: tail ∧ startsExpr c = true ∧
    isCastBlank c = false ∧ identStart c = false := by
  have hall : ∀ s ∈ signs, s.toList.head?.any (fun c => startsExpr c && !isCastBlank c &&
      !identStart c) = true := by decide
  have hhead := hall s hs
  cases htext : s.toList with
  | nil =>
      rw [htext] at hhead
      cases hhead
  | cons c tail =>
      rw [htext] at hhead
      simp only [List.head?_cons, Option.any_some, Bool.and_eq_true, Bool.not_eq_true'] at hhead
      exact ⟨c, tail, rfl, hhead.1.1, hhead.1.2, hhead.2⟩

namespace Lexes

/-- A sign before its operand, where the two do not grow together. -/
theorem sign (h : Lexes x ts) (hs : s ∈ signs)
    (hapart : ¬ ((s = "-" ∨ s = "+") ∧ (x.head? = some '-' ∨ x.head? = some '+'))) :
    Lexes (s.toList ++ x) (.symbol s :: ts) where
  starts := by
    obtain ⟨c, tail, heq, hc, -, -⟩ := sign_head hs
    exact ⟨c, tail ++ x, by rw [heq, List.cons_append], hc⟩
  uncast := by
    intro rest _
    obtain ⟨c, tail, heq, -, hblank, hident⟩ := sign_head hs
    rw [heq]
    exact cast?_of_head hblank hident _
  reads := by
    intro rest hrest
    obtain ⟨c, tail, rfl, hc⟩ := h.starts
    rw [List.append_assoc]
    refine (reads_sign hs hc (fun hboth => hapart ⟨hboth.1, ?_⟩) _).trans (h.reads rest hrest)
    exact hboth.2.imp (congrArg some) (congrArg some)

/-- A sign before its operand: a blank keeps it apart from another sign. -/
theorem signed (h : Lexes x ts) (hs : s ∈ signs) :
    Lexes (Print.signed s.toList x) (.symbol s :: ts) := by
  have hminus : s.toList = "-".toList ↔ s = "-" := String.toList_inj
  have hplus : s.toList = "+".toList ↔ s = "+" := String.toList_inj
  rw [Print.signed]
  split
  · refine ⟨?_, ?_, fun rest hrest => ?_⟩
    · obtain ⟨c, tail, heq, hc, -, -⟩ := sign_head hs
      exact ⟨c, tail ++ ' ' :: x, by rw [heq, List.cons_append], hc⟩
    · intro rest _
      obtain ⟨c, tail, heq, -, hblank, hident⟩ := sign_head hs
      rw [heq]
      exact cast?_of_head hblank hident _
    · have hsymbol : ∀ s ∈ signs, s ∈ symbols ∧ s ≠ "(" := by decide
      rw [List.append_assoc, List.cons_append]
      exact (reads_spaced (hsymbol s hs).1 (hsymbol s hs).2 _).trans (h.reads rest hrest)
  · rename_i hapart
    exact h.sign hs fun hboth => hapart ⟨hboth.1.imp hminus.2 hplus.2, hboth.2⟩

end Lexes

end TypedPhp.Read
