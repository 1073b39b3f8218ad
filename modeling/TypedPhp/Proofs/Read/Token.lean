import TypedPhp.Proofs.Read.Quoted

set_option autoImplicit false

/-!
# Tokens

`Read.lex` splits source text into tokens, each the longest one that can be read: words, variables,
numbers, quoted strings, casts, and symbols. A parenthesis begins a cast if the name of a type and
the closing parenthesis follow it. Comments are not read: what begins one is a symbol that no
expression goes on with.

For every kind of token there is a lemma that says when its text is read as this one token: if what
follows cannot go on with it. A symbol may be followed by any character but the few that make a
longer symbol of it (`Read.continuations`).
-/

namespace TypedPhp.Read

/-- A token of source text. -/
inductive Token where
  | word (s : String)
  | var (name : String)
  | number (text : List Char)
  | quoted (parts : List StringPart)
  | cast (keyword : String)
  | symbol (s : String)
deriving DecidableEq, Repr, Inhabited

/-! ## The reader -/

/-- Operators and punctuation, the longer ones first. -/
def symbols : List String :=
  ["<=>", "===", "!==", "**=", "<<=", ">>=", "??=", "...", "?->", "<<<",
   "++", "--", "->", "=>", "::", "==", "!=", "<>", "<=", ">=", "&&", "||", "??", "**", "<<", ">>",
   "+=", "-=", "*=", "/=", ".=", "%=", "&=", "|=", "^=", "//", "/*", "?>",
   "+", "-", "*", "/", "%", "=", "<", ">", "!", ".", "(", ")", "[", "]", "\x7b", "\x7d", ",", ";",
   "?", ":", "&", "|", "^", "~", "@", "$"]

/-- The longest symbol at the start of a text, and what is left. -/
def symbol? (text : List Char) : Option (Token × List Char) :=
  (symbols.find? fun s => s.toList.isPrefixOf text).map fun s =>
    (.symbol s, text.drop s.toList.length)

/-- A word in lower case. -/
def lower (s : String) : String := String.ofList (s.toList.map Char.toLower)

/-- The names of types in casts, with the keyword of each type. -/
def castWords : List (String × String) :=
  [("bool", "bool"), ("boolean", "bool"), ("int", "int"), ("integer", "int"), ("float", "float"),
   ("double", "float"), ("real", "float"), ("string", "string"), ("binary", "string"),
   ("array", "array"), ("object", "object"), ("unset", "unset")]

/-- The words that are no names, in lower case. -/
def keywords : List String :=
  ["null", "true", "false", "new", "and", "or", "xor", "tuple", "__halt_compiler", "abstract",
   "array", "as", "break", "callable", "case", "catch", "class", "clone", "const", "continue", "declare",
   "default", "die", "do", "echo", "else", "elseif", "empty", "enddeclare", "endfor", "endforeach",
   "endif", "endswitch", "endwhile", "eval", "exit", "extends", "final", "finally", "fn", "for",
   "foreach", "function", "global", "goto", "if", "implements", "include", "include_once",
   "instanceof", "insteadof", "interface", "isset", "list", "match", "namespace", "print",
   "private", "protected", "public", "readonly", "require", "require_once", "return", "static",
   "switch", "throw", "trait", "try", "unset", "use", "var", "while", "yield"]

/-- The constants that stand for floats without digits. -/
def floatWords : List String := ["NAN", "INF"]

/-- Whether a word is the name of a function, a class or a constant: an identifier that is no
keyword, no name of a type in casts, and no float. -/
def isName (s : String) : Bool :=
  isIdentifier s && !keywords.contains (lower s) && (castWords.lookup (lower s)).isNone &&
    !floatWords.contains s

/-- Whether a character may stand beside the name of a type in a cast. -/
def isCastBlank (c : Char) : Bool := c == ' ' || c == '\t'

/-- What follows a parenthesis that begins a cast, and what is left. -/
def cast? (text : List Char) : Option (Token × List Char) :=
  match label? (text.dropWhile isCastBlank) with
  | none => none
  | some (s, rest) =>
    match castWords.lookup (lower s), rest.dropWhile isCastBlank with
    | some keyword, ')' :: left => some (.cast keyword, left)
    | _, _ => none

/-- The token at the start of a text, and what is left. -/
def token? : List Char → Option (Token × List Char)
  | [] => none
  | c :: rest =>
    if identStart c then (label? (c :: rest)).map fun r => (.word r.1, r.2)
    else if c.isDigit ∨ c = '.' ∧ rest.head?.any Char.isDigit then
      some (.number (number (c :: rest)).1, (number (c :: rest)).2)
    else if c = '"' then (quotedBody rest).map fun r => (.quoted r.1, r.2)
    else if c = '$' ∧ (label? rest).isSome then (label? rest).map fun r => (.var r.1, r.2)
    else if c = '(' ∧ (cast? rest).isSome then cast? rest
    else symbol? (c :: rest)

/-- Whether a character separates tokens. -/
def isBlank (c : Char) : Bool := c == ' ' || c == '\t' || c == '\n' || c == '\r'

/-- What is left after a quoted string is shorter. -/
theorem length_of_quotedBody {text rest : List Char} {parts : List StringPart}
    (h : quotedBody text = some (parts, rest)) : rest.length < text.length := by
  fun_induction quotedBody text generalizing parts with
  | case1 => cases h
  | case2 text left hitem =>
      obtain ⟨-, rfl⟩ := Prod.mk.inj (Option.some.inj h)
      exact length_of_quotedItem? hitem
  | case3 text bytes left hitem ih =>
      obtain ⟨r, hr, heq⟩ := Option.map_eq_some_iff.1 h
      obtain ⟨-, rfl⟩ := Prod.mk.inj heq
      exact Nat.lt_trans (ih hr) (length_of_quotedItem? hitem)
  | case4 text name left hitem ih =>
      obtain ⟨r, hr, heq⟩ := Option.map_eq_some_iff.1 h
      obtain ⟨-, rfl⟩ := Prod.mk.inj heq
      exact Nat.lt_trans (ih hr) (length_of_quotedItem? hitem)

/-- What is left after a cast is shorter. -/
theorem length_of_cast? {text rest : List Char} {t : Token} (h : cast? text = some (t, rest)) :
    rest.length < text.length := by
  unfold cast? at h
  split at h
  · cases h
  · rename_i s left hlabel
    split at h
    · rename_i hleft
      obtain ⟨-, rfl⟩ := Prod.mk.inj (Option.some.inj h)
      have hblank := List.length_dropWhile_le isCastBlank left
      have htext := List.length_dropWhile_le isCastBlank text
      have hlt := length_of_label? hlabel
      rw [hleft, List.length_cons] at hblank
      omega
    · cases h

/-- What is left after a token is shorter. -/
theorem length_of_token? {text rest : List Char} {t : Token} (h : token? text = some (t, rest)) :
    rest.length < text.length := by
  cases text with
  | nil => cases h
  | cons c text =>
      rw [token?] at h
      split_ifs at h with hword hnumber hquote hvar hcast
      · obtain ⟨r, hr, heq⟩ := Option.map_eq_some_iff.1 h
        obtain ⟨-, rfl⟩ := Prod.mk.inj heq
        exact length_of_label? hr
      · obtain ⟨-, rfl⟩ := Prod.mk.inj (Option.some.inj h)
        exact length_number (hnumber.imp_right And.left) text
      · obtain ⟨r, hr, heq⟩ := Option.map_eq_some_iff.1 h
        obtain ⟨-, rfl⟩ := Prod.mk.inj heq
        exact Nat.lt_succ_of_lt (length_of_quotedBody hr)
      · obtain ⟨r, hr, heq⟩ := Option.map_eq_some_iff.1 h
        obtain ⟨-, rfl⟩ := Prod.mk.inj heq
        exact Nat.lt_succ_of_lt (length_of_label? hr)
      · exact Nat.lt_succ_of_lt (length_of_cast? h)
      · obtain ⟨s, hs, heq⟩ := Option.map_eq_some_iff.1 h
        obtain ⟨-, rfl⟩ := Prod.mk.inj heq
        have hpos : ∀ s ∈ symbols, 0 < s.toList.length := by decide
        have hlen := hpos s (List.mem_of_find?_eq_some hs)
        rw [List.length_drop, List.length_cons]
        omega

/-- The tokens of a text, if it consists of tokens and blanks. -/
def lex (text : List Char) : Option (List Token) :=
  match text with
  | [] => some []
  | c :: rest =>
    if isBlank c then lex rest
    else
      match _h : token? (c :: rest) with
      | none => none
      | some (t, left) => (lex left).map (t :: ·)
termination_by text.length
decreasing_by
  · exact Nat.lt_succ_self _
  · exact length_of_token? _h

/-! ## Tokens by kind -/

variable {rest : List Char}

theorem lex_blank (rest : List Char) : lex (' ' :: rest) = lex rest := by
  rw [lex, if_pos (show isBlank ' ' = true from rfl)]

/-- A text that begins with a token. -/
theorem lex_token {c : Char} {text : List Char} {t : Token} (hc : isBlank c = false)
    (h : token? (c :: text) = some (t, rest)) : lex (c :: text) = (lex rest).map (t :: ·) := by
  rw [lex, if_neg (by rw [hc]; decide)]
  split
  all_goals
    rename_i heq
    rw [h] at heq
    cases heq
  rfl

/-- No blank begins an identifier or is a digit. -/
theorem not_isBlank {c : Char} (h : identStart c = true ∨ c.isDigit = true) :
    isBlank c = false := by
  rw [Bool.eq_false_iff]
  intro hc
  simp only [isBlank, Bool.or_eq_true, beq_iff_eq] at hc
  obtain ((rfl | rfl) | rfl) | rfl := hc
  all_goals exact absurd h (by decide)

/-- A word is read as one token. -/
theorem lex_word {s : String} (hs : isIdentifier s = true)
    (hrest : ∀ c ∈ rest.head?, identChar c = false) :
    lex (s.toList ++ rest) = (lex rest).map (.word s :: ·) := by
  obtain ⟨c, tail, heq, hstart, -⟩ := exists_of_isIdentifier hs
  have hlabel := label?_append hs hrest
  rw [heq, List.cons_append] at hlabel ⊢
  refine lex_token (not_isBlank (Or.inl hstart)) ?_
  rw [token?, if_pos hstart, hlabel]
  rfl

/-- A variable is read as one token. -/
theorem lex_var {name : String} (hname : isIdentifier name = true)
    (hrest : ∀ c ∈ rest.head?, identChar c = false) :
    lex ('$' :: (name.toList ++ rest)) = (lex rest).map (.var name :: ·) := by
  refine lex_token (by decide) ?_
  have hlabel := label?_append hname hrest
  rw [token?, if_neg (by decide), if_neg (by simp), if_neg (by decide), hlabel,
    if_pos (by simp)]
  rfl

/-- A numeral is read as one token. -/
theorem lex_number {x : List Char} (hx : Numeral x) (hrest : EndsNumber rest) :
    lex (x ++ rest) = (lex rest).map (.number x :: ·) := by
  have hnumber := number_append hx hrest
  obtain ⟨d, tail, rfl, hd⟩ := hx.head
  have hstart : ¬ identStart d = true := by
    rw [identStart_of_isDigit hd]
    decide
  refine lex_token (not_isBlank (Or.inr hd)) ?_
  change token? (d :: (tail ++ rest)) = _
  rw [List.cons_append] at hnumber
  rw [token?, if_neg hstart, if_pos (Or.inl hd), hnumber]

/-- A quoted string is read as one token. -/
theorem lex_quoted {parts : List StringPart}
    (hnames : ∀ name, .var name ∈ parts → isIdentifier name = true) (rest : List Char) :
    lex ('"' :: (parts.flatMap StringPart.spelling ++ '"' :: rest)) =
      (lex rest).map (.quoted (joinParts parts) :: ·) := by
  refine lex_token (by decide) ?_
  rw [token?, if_neg (by decide), if_neg (by simp), if_pos rfl,
    quotedBody_parts hnames]
  rfl

theorem dropWhile_castBlank {c : Char} {text : List Char} (hc : isCastBlank c = false) :
    (c :: text).dropWhile isCastBlank = c :: text :=
  List.dropWhile_cons_of_neg (by rw [hc]; decide)

/-- A character that an identifier can begin with is no blank of a cast. -/
theorem not_isCastBlank {c : Char} (h : identStart c = true) : isCastBlank c = false := by
  rw [Bool.eq_false_iff]
  intro hc
  simp only [isCastBlank, Bool.or_eq_true, beq_iff_eq] at hc
  rcases hc with rfl | rfl
  all_goals exact absurd h (by decide)

/-- The name of a type before a parenthesis begins a cast. -/
theorem cast?_append {s keyword : String} (hs : isIdentifier s = true)
    (hkeyword : castWords.lookup (lower s) = some keyword) (rest : List Char) :
    cast? (s.toList ++ ')' :: rest) = some (.cast keyword, rest) := by
  have hlabel : label? (s.toList ++ ')' :: rest) = some (s, ')' :: rest) := by
    refine label?_append hs fun c hc => ?_
    obtain rfl := Option.some.inj hc
    decide
  obtain ⟨c, tail, heq, hstart, -⟩ := exists_of_isIdentifier hs
  have hdrop : (s.toList ++ ')' :: rest).dropWhile isCastBlank = s.toList ++ ')' :: rest := by
    rw [heq]
    exact dropWhile_castBlank (not_isCastBlank hstart)
  rw [cast?, hdrop, hlabel]
  dsimp only
  rw [hkeyword, dropWhile_castBlank (by decide)]
  rfl

/-- A cast is read as one token. -/
theorem lex_cast {s keyword : String} (hs : isIdentifier s = true)
    (hkeyword : castWords.lookup (lower s) = some keyword) (rest : List Char) :
    lex ('(' :: (s.toList ++ ')' :: rest)) = (lex rest).map (.cast keyword :: ·) := by
  have hcast := cast?_append hs hkeyword rest
  refine lex_token (by decide) ?_
  rw [token?, if_neg (by decide), if_neg (by simp), if_neg (by decide), if_neg (by simp), hcast,
    if_pos (by simp)]

/-- No cast begins before a word that names no type. -/
theorem cast?_word {s : String} (hs : isIdentifier s = true)
    (hnone : castWords.lookup (lower s) = none) (hrest : ∀ c ∈ rest.head?, identChar c = false) :
    cast? (s.toList ++ rest) = none := by
  have hlabel := label?_append hs hrest
  obtain ⟨c, tail, heq, hstart, -⟩ := exists_of_isIdentifier hs
  have hdrop : (s.toList ++ rest).dropWhile isCastBlank = s.toList ++ rest := by
    rw [heq]
    exact dropWhile_castBlank (not_isCastBlank hstart)
  rw [cast?, hdrop, hlabel]
  dsimp only
  rw [hnone]

theorem cast?_of_head {c : Char} (hblank : isCastBlank c = false) (hstart : identStart c = false)
    (text : List Char) : cast? (c :: text) = none := by
  rw [cast?, dropWhile_castBlank hblank, label?, if_neg (by rw [hstart]; decide)]

/-! ## Symbols -/

/-- The characters that make a longer symbol of a symbol, or a token of another kind. -/
def continuations (s : String) : List Char :=
  symbols.filterMap fun t =>
    if s.toList.isPrefixOf t.toList then (t.toList.drop s.toList.length).head? else none

/-- What continues a symbol stands in one. -/
theorem mem_symbol_of_continuation {s : String} {c : Char} (h : c ∈ continuations s) :
    ∃ t ∈ symbols, c ∈ t.toList := by
  obtain ⟨t, ht, hc⟩ := List.mem_filterMap.1 h
  refine ⟨t, ht, ?_⟩
  split at hc
  · exact List.mem_of_mem_drop (List.mem_of_head? hc)
  · cases hc

/-- Conditions that agree on a list find the same element of it. -/
theorem find?_congr {α : Type} {p q : α → Bool} {xs : List α} (h : ∀ x ∈ xs, p x = q x) :
    xs.find? p = xs.find? q := by
  induction xs with
  | nil => rfl
  | cons x xs ih =>
      rw [List.find?_cons, List.find?_cons, h x List.mem_cons_self,
        ih fun y hy => h y (List.mem_cons_of_mem x hy)]

/-- A symbol is the longest one at the start of a text if the next character does not continue it.
-/
theorem find?_symbol {s : String} (hs : s ∈ symbols)
    (hrest : ∀ c ∈ rest.head?, c ∉ continuations s) :
    symbols.find? (fun t => t.toList.isPrefixOf (s.toList ++ rest)) = some s := by
  -- Symbols that the text begins with are those that the symbol begins with: a longer one would
  -- continue it.
  have hsame : ∀ t ∈ symbols, t.toList.isPrefixOf (s.toList ++ rest) =
      t.toList.isPrefixOf s.toList := by
    intro t ht
    rw [Bool.eq_iff_iff, List.isPrefixOf_iff_prefix, List.isPrefixOf_iff_prefix]
    constructor
    · intro hleading
      rcases Nat.lt_or_ge s.toList.length t.toList.length with hlt | hge
      · exfalso
        obtain ⟨more, hmore⟩ : s.toList <+: t.toList :=
          List.prefix_of_prefix_length_le (List.prefix_append _ _) hleading (Nat.le_of_lt hlt)
        cases more with
        | nil =>
            rw [List.append_nil] at hmore
            rw [hmore] at hlt
            exact Nat.lt_irrefl _ hlt
        | cons c more =>
            rw [← hmore, List.prefix_append_right_inj] at hleading
            obtain ⟨tail, rfl⟩ := hleading
            refine hrest c rfl (List.mem_filterMap.2 ⟨t, ht, ?_⟩)
            rw [← hmore, if_pos (List.isPrefixOf_iff_prefix.2 (List.prefix_append _ _)),
              List.drop_left]
            rfl
      · exact List.prefix_of_prefix_length_le hleading (List.prefix_append _ _) hge
    · exact fun hleading => hleading.trans (List.prefix_append _ _)
  have hfirst : ∀ s ∈ symbols, symbols.find? (fun t => t.toList.isPrefixOf s.toList) = some s := by
    decide +kernel
  rw [← hfirst s hs]
  exact find?_congr hsame

/-- The first character of a symbol. -/
theorem symbol_head {s : String} (hs : s ∈ symbols) : ∃ c tail, s.toList = c :: tail ∧
    isBlank c = false ∧ identStart c = false ∧ c.isDigit = false ∧ c ≠ '"' := by
  have hall : ∀ s ∈ symbols, s.toList.head?.any (fun c => !isBlank c && !identStart c &&
      !c.isDigit && c != '"') = true := by decide
  have hhead := hall s hs
  cases htext : s.toList with
  | nil =>
      rw [htext] at hhead
      cases hhead
  | cons c tail =>
      rw [htext] at hhead
      simp only [List.head?_cons, Option.any_some, Bool.and_eq_true, Bool.not_eq_true',
        bne_iff_ne] at hhead
      exact ⟨c, tail, rfl, hhead.1.1.1, hhead.1.1.2, hhead.1.2, hhead.2⟩

/-- A symbol is read as one token if the next character does not continue it. A point or a
dollar needs a blank after it, and after a parenthesis there may stand no cast. -/
theorem lex_symbol {s : String} (hs : s ∈ symbols) (hrest : ∀ c ∈ rest.head?, c ∉ continuations s)
    (hblank : s = "." ∨ s = "$" → rest.head? = some ' ') (hcast : s = "(" → cast? rest = none) :
    lex (s.toList ++ rest) = (lex rest).map (.symbol s :: ·) := by
  have hsymbol : symbol? (s.toList ++ rest) = some (.symbol s, rest) := by
    rw [symbol?, find?_symbol hs hrest, Option.map_some, List.drop_left]
  obtain ⟨c, tail, htext, hc, hident, hdigit, hquote⟩ := symbol_head hs
  -- A longer symbol that begins with a point goes on with no digit, and none begins with the
  -- others.
  have hpoint : c = '.' → (tail ++ rest).head?.any Char.isDigit = false := by
    rintro rfl
    have hall : ∀ s ∈ symbols, s.toList.head? = some '.' → s = "." ∨
        s.toList.tail.head?.any (fun d => !d.isDigit) = true := by decide
    rcases hall s hs (by rw [htext]; rfl) with heq | hnext
    · have htail : tail = [] := by
        rw [heq] at htext
        exact (List.cons.inj htext).2.symm
      rw [htail, List.nil_append, hblank (Or.inl heq)]
      rfl
    · rw [htext, List.tail_cons] at hnext
      cases tail with
      | nil => cases hnext
      | cons d tail => simpa using hnext
  have hsingle : ∀ s ∈ symbols, (s.toList.head? = some '$' → s.toList = ['$']) ∧
      (s.toList.head? = some '(' → s.toList = ['(']) := by decide
  have hhead : s.toList.head? = some c := by rw [htext, List.head?_cons]
  have hdollar : ¬ (c = '$' ∧ (label? (tail ++ rest)).isSome) := by
    rintro ⟨heq, hlabel⟩
    have hone := (hsingle s hs).1 (by rw [hhead, heq])
    have hs : s = "$" := String.toList_inj.1 hone
    obtain ⟨-, rfl⟩ := List.cons.inj (htext.symm.trans hone)
    rw [List.nil_append] at hlabel
    cases hr : rest with
    | nil =>
        rw [hr] at hlabel
        cases hlabel
    | cons e rest' =>
        have hblank := hblank (Or.inr hs)
        rw [hr] at hblank hlabel
        obtain rfl := Option.some.inj hblank
        cases hlabel
  have hparen : ¬ (c = '(' ∧ (cast? (tail ++ rest)).isSome) := by
    rintro ⟨heq, hsome⟩
    have hone := (hsingle s hs).2 (by rw [hhead, heq])
    obtain ⟨-, rfl⟩ := List.cons.inj (htext.symm.trans hone)
    rw [List.nil_append, hcast (String.toList_inj.1 hone)] at hsome
    cases hsome
  rw [htext, List.cons_append] at hsymbol ⊢
  refine lex_token hc ?_
  rw [token?, if_neg (by rw [hident]; decide), if_neg ?_, if_neg hquote, if_neg hdollar,
    if_neg hparen, hsymbol]
  rintro (h | ⟨heq, h⟩)
  · rw [hdigit] at h
    cases h
  · rw [hpoint heq] at h
    cases h

end TypedPhp.Read
