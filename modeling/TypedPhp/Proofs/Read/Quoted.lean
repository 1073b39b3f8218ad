import TypedPhp.Proofs.Read.Scan
import TypedPhp.Text.Quoted

set_option autoImplicit false

/-!
# Reading quoted strings

The rules of double quotes: a backslash starts an escape, a dollar before a name or in braces
inserts a variable, and the first quote that is not escaped ends the string. A string that is read
is a list of parts, in which no two texts stand next to each other and no text is empty.

What the writer escapes is read back as the same bytes (`Read.quotedBody_escape`): a character is
written as itself or as an escape, and a byte that belongs to no character as two hexadecimal
digits, so a digit that follows is not taken for a third one. A brace at the end of a text does not
meet a dollar, because a dollar is escaped.
-/

namespace TypedPhp.Read

/-! ## Parts -/

/-- A part of a quoted string. -/
inductive StringPart where
  | text (bytes : List UInt8)
  | var (name : String)
deriving DecidableEq, Repr, Inhabited

/-- Some bytes before the parts of a string: they belong to the text that follows, if one does. -/
def prependBytes (bytes : List UInt8) : List StringPart → List StringPart
  | .text more :: parts => .text (bytes ++ more) :: parts
  | parts => if bytes = [] then parts else .text bytes :: parts

/-- The parts of a string with adjacent texts joined and empty texts left out. -/
def joinParts : List StringPart → List StringPart
  | [] => []
  | .text bytes :: parts => prependBytes bytes (joinParts parts)
  | .var name :: parts => .var name :: joinParts parts

/-- Bytes before bytes before the parts of a string. -/
theorem prependBytes_append (xs ys : List UInt8) (parts : List StringPart) :
    prependBytes (xs ++ ys) parts = prependBytes xs (prependBytes ys parts) := by
  have hnone : ∀ parts : List StringPart, (∀ bytes rest, parts ≠ .text bytes :: rest) →
      prependBytes (xs ++ ys) parts = prependBytes xs (prependBytes ys parts) := by
    intro parts hparts
    have hplain : ∀ bytes, prependBytes bytes parts =
        if bytes = [] then parts else .text bytes :: parts := by
      intro bytes
      rw [prependBytes]
      exact fun _ _ heq => hparts _ _ heq
    rw [hplain, hplain]
    by_cases hys : ys = []
    · rw [if_pos hys, hys, List.append_nil, hplain]
    · rw [if_neg hys, if_neg (List.append_ne_nil_of_right_ne_nil xs hys)]
      rfl
  cases parts with
  | nil => exact hnone [] fun _ _ heq => nomatch heq
  | cons part parts =>
      cases part with
      | text more =>
          simp only [prependBytes, List.append_assoc]
      | var name => exact hnone _ fun _ _ heq => nomatch heq

theorem prependBytes_nil (parts : List StringPart) : prependBytes [] parts = parts := by
  unfold prependBytes
  split
  · rw [List.nil_append]
  · rw [if_pos rfl]

/-! ## The reader -/

/-- The byte of an escape by name. -/
def namedEscape? : Char → Option UInt8
  | 'n' => some 10
  | 'r' => some 13
  | 't' => some 9
  | 'v' => some 11
  | 'e' => some 27
  | 'f' => some 12
  | '"' => some 34
  | '\\' => some 92
  | '$' => some 36
  | _ => none

/-- The value of a hexadecimal digit. -/
def hexValue? (c : Char) : Option Nat :=
  if c.isDigit then some (c.toNat - 48)
  else if 'a' ≤ c ∧ c ≤ 'f' then some (c.toNat - 87)
  else if 'A' ≤ c ∧ c ≤ 'F' then some (c.toNat - 55)
  else none

/-- One or two hexadecimal digits, and what is left. -/
def hexByte? : List Char → Option (UInt8 × List Char)
  | [] => none
  | c :: rest =>
    match hexValue? c, rest.head?.bind hexValue? with
    | none, _ => none
    | some high, some low => some (UInt8.ofNat (16 * high + low), rest.tail)
    | some low, none => some (UInt8.ofNat low, rest)

/-- What is left after hexadecimal digits is shorter. -/
theorem length_of_hexByte? {text rest : List Char} {b : UInt8}
    (h : hexByte? text = some (b, rest)) :
    rest.length < text.length := by
  cases text with
  | nil => cases h
  | cons c text =>
      rw [hexByte?] at h
      split at h
      · cases h
      · obtain ⟨-, rfl⟩ := Prod.mk.inj (Option.some.inj h)
        rw [List.length_tail, List.length_cons]
        omega
      · obtain ⟨-, rfl⟩ := Prod.mk.inj (Option.some.inj h)
        exact Nat.lt_succ_self _

/-- What stands next in a quoted string. -/
inductive QuotedItem where
  | close
  | bytes (bytes : List UInt8)
  | var (name : String)
deriving Repr

/-- What a backslash begins: an escape by name, or one of hexadecimal digits. A backslash before
something else stands for itself. -/
def escapeItem? : List Char → Option (QuotedItem × List Char)
  | [] => none
  | c :: rest =>
    match namedEscape? c, (if c = 'x' then hexByte? rest else none) with
    | some b, _ => some (.bytes [b], rest)
    | none, some (b, left) => some (.bytes [b], left)
    | none, none => some (.bytes (92 :: String.utf8EncodeChar c), rest)

/-- What a dollar begins: a variable by its name. Indexes and members after it are not read, and
neither are braces. A dollar before something else stands for itself. -/
def dollarItem? (text : List Char) : Option (QuotedItem × List Char) :=
  match label? text with
  | some (name, rest) =>
    if ['['].isPrefixOf rest || ['-', '>'].isPrefixOf rest then none else some (.var name, rest)
  | none => if text.head? = some '\x7b' then none else some (.bytes [36], text)

/-- What a dollar after a brace begins: a variable by its name, up to the closing brace. Other
expressions are not read. -/
def braceItem? (text : List Char) : Option (QuotedItem × List Char) :=
  match label? text with
  | some (name, '\x7d' :: rest) => some (.var name, rest)
  | _ => none

/-- What stands next in a quoted string, and what is left. -/
def quotedItem? : List Char → Option (QuotedItem × List Char)
  | [] => none
  | c :: rest =>
    if c = '"' then some (.close, rest)
    else if c = '\\' then escapeItem? rest
    else if c = '$' then dollarItem? rest
    else if c = '\x7b' ∧ rest.head? = some '$' then braceItem? rest.tail
    else some (.bytes (String.utf8EncodeChar c), rest)

/-- What is left after an escape is no longer than what follows its backslash. -/
theorem length_of_escapeItem? {text rest : List Char} {item : QuotedItem}
    (h : escapeItem? text = some (item, rest)) : rest.length ≤ text.length := by
  cases text with
  | nil => cases h
  | cons c text =>
      rw [escapeItem?] at h
      split at h
      · obtain ⟨-, rfl⟩ := Prod.mk.inj (Option.some.inj h)
        exact Nat.le_succ _
      · rename_i hhex
        obtain ⟨-, rfl⟩ := Prod.mk.inj (Option.some.inj h)
        split at hhex
        · exact Nat.le_succ_of_le (Nat.le_of_lt (length_of_hexByte? hhex))
        · cases hhex
      · obtain ⟨-, rfl⟩ := Prod.mk.inj (Option.some.inj h)
        exact Nat.le_succ _

/-- What is left after a dollar and a variable is no longer than what follows the dollar. -/
theorem length_of_dollarItem? {text rest : List Char} {item : QuotedItem}
    (h : dollarItem? text = some (item, rest)) : rest.length ≤ text.length := by
  unfold dollarItem? at h
  split at h
  · rename_i hlabel
    split at h
    · cases h
    · obtain ⟨-, rfl⟩ := Prod.mk.inj (Option.some.inj h)
      exact Nat.le_of_lt (length_of_label? hlabel)
  · split at h
    · cases h
    · obtain ⟨-, rfl⟩ := Prod.mk.inj (Option.some.inj h)
      exact Nat.le_refl _

/-- What is left after a variable in braces is no longer than what follows its dollar. -/
theorem length_of_braceItem? {text rest : List Char} {item : QuotedItem}
    (h : braceItem? text = some (item, rest)) : rest.length ≤ text.length := by
  unfold braceItem? at h
  split at h
  · rename_i hlabel
    obtain ⟨-, rfl⟩ := Prod.mk.inj (Option.some.inj h)
    exact Nat.le_of_lt (Nat.lt_of_succ_lt (length_of_label? hlabel))
  · cases h

/-- What is left after an item of a quoted string is shorter. -/
theorem length_of_quotedItem? {text rest : List Char} {item : QuotedItem}
    (h : quotedItem? text = some (item, rest)) : rest.length < text.length := by
  cases text with
  | nil => cases h
  | cons c text =>
      rw [quotedItem?] at h
      apply Nat.lt_succ_of_le
      split at h
      · obtain ⟨-, rfl⟩ := Prod.mk.inj (Option.some.inj h)
        exact Nat.le_refl _
      · split at h
        · exact length_of_escapeItem? h
        · split at h
          · exact length_of_dollarItem? h
          · split at h
            · refine Nat.le_trans (length_of_braceItem? h) ?_
              rw [List.length_tail]
              exact Nat.sub_le _ _
            · obtain ⟨-, rfl⟩ := Prod.mk.inj (Option.some.inj h)
              exact Nat.le_refl _

/-- The rest of a string after some bytes. -/
def afterBytes (bytes : List UInt8) (read : Option (List StringPart × List Char)) :
    Option (List StringPart × List Char) :=
  read.map fun r => (prependBytes bytes r.1, r.2)

/-- The rest of a string after a variable. -/
def afterVar (name : String) (read : Option (List StringPart × List Char)) :
    Option (List StringPart × List Char) :=
  read.map fun r => (.var name :: r.1, r.2)

/-- The parts of a string from behind its opening quote on, and what is left after the closing
one. -/
def quotedBody (text : List Char) : Option (List StringPart × List Char) :=
  match _h : quotedItem? text with
  | none => none
  | some (.close, rest) => some ([], rest)
  | some (.bytes bytes, rest) => afterBytes bytes (quotedBody rest)
  | some (.var name, rest) => afterVar name (quotedBody rest)
termination_by text.length
decreasing_by all_goals exact length_of_quotedItem? _h

/-! ## Items that are printed -/

variable {text rest : List Char}

theorem quotedBody_close (rest : List Char) : quotedBody ('"' :: rest) = some ([], rest) := by
  rw [quotedBody]
  rfl

/-- Bytes that stand next. -/
theorem quotedBody_bytes {bytes : List UInt8} (h : quotedItem? text = some (.bytes bytes, rest)) :
    quotedBody text = afterBytes bytes (quotedBody rest) := by
  rw [quotedBody]
  split
  all_goals
    rename_i heq
    rw [h] at heq
    cases heq
  rfl

/-- A variable in braces. -/
theorem quotedBody_var {name : String} (hname : isIdentifier name = true) (rest : List Char) :
    quotedBody ('\x7b' :: '$' :: (name.toList ++ '\x7d' :: rest)) =
      afterVar name (quotedBody rest) := by
  have hlabel : label? (name.toList ++ '\x7d' :: rest) = some (name, '\x7d' :: rest) := by
    refine label?_append hname fun c hc => ?_
    obtain rfl := Option.some.inj hc
    decide
  have hitem : quotedItem? ('\x7b' :: '$' :: (name.toList ++ '\x7d' :: rest)) =
      some (.var name, rest) := by
    change braceItem? (name.toList ++ '\x7d' :: rest) = _
    rw [braceItem?, hlabel]
    rfl
  rw [quotedBody]
  split
  all_goals
    rename_i heq
    rw [hitem] at heq
    cases heq
  rfl

/-- Bytes before bytes that stand next. -/
theorem afterBytes_append (xs ys : List UInt8) (read : Option (List StringPart × List Char)) :
    afterBytes xs (afterBytes ys read) = afterBytes (xs ++ ys) read := by
  cases read with
  | none => rfl
  | some r =>
      rw [afterBytes, afterBytes, afterBytes, Option.map_some, Option.map_some, Option.map_some,
        prependBytes_append]

theorem afterBytes_nil (read : Option (List StringPart × List Char)) :
    afterBytes [] read = read := by
  cases read with
  | none => rfl
  | some r => rw [afterBytes, Option.map_some, prependBytes_nil]

/-! ## Escapes -/

theorem hexValue?_hexDigit (n : Nat) : hexValue? (Text.hexDigit n) = some (n % 16) := by
  have hall : ∀ k : Fin 16, hexValue? (Nat.digitChar k.val) = some k.val := by decide
  exact hall ⟨n % 16, Nat.mod_lt n (by decide)⟩

/-- A byte as a hexadecimal escape is read back, whatever follows. -/
theorem quotedBody_hexEscape {b : Nat} (hb : b < 256) (rest : List Char) :
    quotedBody (Text.hexEscape b ++ rest) = afterBytes [UInt8.ofNat b] (quotedBody rest) := by
  have hbyte : hexByte? (Text.hexDigit (b / 16) :: Text.hexDigit b :: rest) =
      some (UInt8.ofNat b, rest) := by
    have hvalue : 16 * (b / 16 % 16) + b % 16 = b := by omega
    rw [hexByte?, hexValue?_hexDigit, List.head?_cons, Option.bind_some, hexValue?_hexDigit]
    simp only [hvalue, List.tail_cons]
  apply quotedBody_bytes
  change escapeItem? ('x' :: Text.hexDigit (b / 16) :: Text.hexDigit b :: rest) = _
  rw [escapeItem?, if_pos rfl, hbyte]
  rfl

/-- The encoding of a character below 128 is its number. -/
theorem utf8EncodeChar_ascii {c : Char} (hc : c.toNat < 128) :
    String.utf8EncodeChar c = [UInt8.ofNat c.toNat] := by
  unfold String.utf8EncodeChar
  rw [if_pos (by simpa using Nat.le_of_lt_succ hc)]
  rfl

theorem quotedBody_named {c : Char} {b : UInt8} (h : namedEscape? c = some b) (rest : List Char) :
    quotedBody ('\\' :: c :: rest) = afterBytes [b] (quotedBody rest) := by
  apply quotedBody_bytes
  change escapeItem? (c :: rest) = _
  rw [escapeItem?, h]

/-- A character that is escaped as needed is read back as its encoding, if no dollar follows. -/
theorem quotedBody_escapeChar (c : Char) (hrest : rest.head? ≠ some '$') :
    quotedBody (Text.escapeChar c ++ rest) =
      afterBytes (String.utf8EncodeChar c) (quotedBody rest) := by
  have hnamed : ∀ {d : Char} {b : UInt8}, namedEscape? d = some b →
      String.utf8EncodeChar c = [b] → quotedBody (['\\', d] ++ rest) =
        afterBytes (String.utf8EncodeChar c) (quotedBody rest) := by
    intro d b hd hc
    rw [hc]
    exact quotedBody_named hd rest
  unfold Text.escapeChar
  split_ifs with hn hr ht hv he hf hself hcontrol
  · exact hnamed rfl (by rw [hn]; rfl)
  · exact hnamed rfl (by rw [hr]; rfl)
  · exact hnamed rfl (by rw [ht]; rfl)
  · exact hnamed rfl (by rw [hv]; rfl)
  · exact hnamed rfl (by rw [he]; rfl)
  · exact hnamed rfl (by rw [hf]; rfl)
  · rcases hself with rfl | rfl | rfl
    all_goals exact hnamed rfl rfl
  · have hlt : c.toNat < 128 := by omega
    rw [quotedBody_hexEscape (by omega), utf8EncodeChar_ascii hlt]
  · have hquote : c ≠ '"' := fun h => hself (Or.inl h)
    have hbackslash : c ≠ '\\' := fun h => hself (Or.inr (Or.inl h))
    have hdollar : c ≠ '$' := fun h => hself (Or.inr (Or.inr h))
    apply quotedBody_bytes
    change quotedItem? (c :: rest) = _
    rw [quotedItem?, if_neg hquote, if_neg hbackslash, if_neg hdollar,
      if_neg fun h => hrest h.2]

/-- An escaped character does not begin with a dollar. -/
theorem escapeChar_head (c : Char) (rest : List Char) :
    (Text.escapeChar c ++ rest).head? ≠ some '$' := by
  unfold Text.escapeChar
  split_ifs with hn hr ht hv he hf hself hcontrol
  all_goals try exact fun h => absurd (Option.some.inj h) (by decide)
  · intro h
    exact hself (Or.inr (Or.inr (Option.some.inj h)))

/-! ## Byte strings -/

/-- Bytes that are already written are left out. -/
theorem escapeFrom_skip (k : Nat) (bytes : List UInt8) :
    Text.escapeFrom k bytes = Text.escapeFrom 0 (bytes.drop k) := by
  induction k generalizing bytes with
  | zero => rfl
  | succ k ih =>
      cases bytes with
      | nil => rfl
      | cons b bytes =>
          rw [Text.escapeFrom, ih, List.drop_succ_cons]

/-- What is written first for some bytes: a character that they begin with, or a byte as a
hexadecimal escape. -/
theorem escape_cons (b : UInt8) (bytes : List UInt8) :
    (∃ c more, b :: bytes = String.utf8EncodeChar c ++ more ∧
      Text.escape (b :: bytes) = Text.escapeChar c ++ Text.escape more) ∨
      Text.escape (b :: bytes) = Text.hexEscape b.toNat ++ Text.escape bytes := by
  rw [Text.escape, Text.escapeFrom]
  split
  · rename_i c hc
    refine Or.inl ⟨c, bytes.drop (c.utf8Size - 1), ?_, ?_⟩
    · obtain ⟨rest, hrest⟩ : String.utf8EncodeChar c <+: b :: bytes := by
        rw [Text.leadingChar?] at hc
        split at hc
        · rename_i hleading
          obtain rfl := Option.some.inj hc
          exact List.isPrefixOf_iff_prefix.1 hleading
        · cases hc
      have hdrop : bytes.drop (c.utf8Size - 1) = rest := by
        have hlen := String.length_utf8EncodeChar c
        rw [← List.drop_succ_cons (a := b), Nat.sub_add_cancel c.utf8Size_pos, ← hrest, ← hlen,
          List.drop_left]
      rw [hdrop, hrest]
    · rw [escapeFrom_skip, Text.escape]
  · exact Or.inr rfl

/-- Induction on bytes and what is written for them: a character that they begin with, or one
byte, stands before bytes for which the statement holds. -/
theorem escapeInduction {motive : List UInt8 → List Char → Prop} (nil : motive [] [])
    (char : ∀ c bytes text, motive bytes text →
      motive (String.utf8EncodeChar c ++ bytes) (Text.escapeChar c ++ text))
    (byte : ∀ b bytes text, motive bytes text →
      motive (b :: bytes) (Text.hexEscape b.toNat ++ text)) :
    ∀ bytes, motive bytes (Text.escape bytes) := by
  intro bytes
  -- Each item takes at least one byte, so the induction is on the number of bytes.
  induction hlen : bytes.length using Nat.strong_induction_on generalizing bytes with
  | _ n ih =>
      subst hlen
      cases bytes with
      | nil => exact nil
      | cons b bytes =>
          rcases escape_cons b bytes with ⟨c, more, hbytes, heq⟩ | heq
          · have hless : more.length < (b :: bytes).length := by
              rw [hbytes, List.length_append, String.length_utf8EncodeChar]
              exact Nat.lt_add_of_pos_left c.utf8Size_pos
            rw [heq, hbytes]
            exact char c more _ (ih _ hless more rfl)
          · rw [heq]
            exact byte b bytes _ (ih _ (Nat.lt_succ_self _) bytes rfl)

/-- What is escaped does not begin with a dollar. -/
theorem escape_head (bytes : List UInt8) (hrest : rest.head? ≠ some '$') :
    (Text.escape bytes ++ rest).head? ≠ some '$' := by
  cases bytes with
  | nil => exact hrest
  | cons b bytes =>
      rcases escape_cons b bytes with ⟨c, more, -, heq⟩ | heq
      · rw [heq, List.append_assoc]
        exact escapeChar_head c _
      · rw [heq, List.append_assoc]
        exact fun h => absurd (Option.some.inj h) (by decide)

/-- What is escaped is read back as the same bytes, if no dollar follows. -/
theorem quotedBody_escape (bytes : List UInt8) (hrest : rest.head? ≠ some '$') :
    quotedBody (Text.escape bytes ++ rest) = afterBytes bytes (quotedBody rest) := by
  -- What follows the first item is no dollar either, which the induction has to carry along.
  have hread := escapeInduction (motive := fun bytes text =>
    (text ++ rest).head? ≠ some '$' ∧
      quotedBody (text ++ rest) = afterBytes bytes (quotedBody rest))
  refine (hread ⟨hrest, (afterBytes_nil _).symm⟩ ?_ ?_ bytes).2
  · intro c bytes text ⟨hhead, ih⟩
    rw [List.append_assoc]
    refine ⟨escapeChar_head c _, ?_⟩
    rw [quotedBody_escapeChar c hhead, ih, afterBytes_append]
  · intro b bytes text ⟨hhead, ih⟩
    rw [List.append_assoc]
    refine ⟨fun h => absurd (Option.some.inj h) (by decide), ?_⟩
    rw [quotedBody_hexEscape b.toNat_lt, ih, afterBytes_append, UInt8.ofNat_toNat]
    rfl

/-- The text of a part: escaped bytes, or a variable in braces. -/
def StringPart.spelling : StringPart → List Char
  | .text bytes => Text.escape bytes
  | .var name => '\x7b' :: '$' :: (name.toList ++ ['\x7d'])

/-- The text of parts up to the closing quote does not begin with a dollar. -/
theorem spelling_head (parts : List StringPart) (rest : List Char) :
    (parts.flatMap StringPart.spelling ++ '"' :: rest).head? ≠ some '$' := by
  induction parts with
  | nil => exact fun h => absurd (Option.some.inj h) (by decide)
  | cons part parts ih =>
      rw [List.flatMap_cons, List.append_assoc]
      cases part with
      | text bytes => exact escape_head bytes ih
      | var name => exact fun h => absurd (Option.some.inj h) (by decide)

/-- The parts of a string are read back, joined. -/
theorem quotedBody_parts {parts : List StringPart}
    (hnames : ∀ name, .var name ∈ parts → isIdentifier name = true) (rest : List Char) :
    quotedBody (parts.flatMap StringPart.spelling ++ '"' :: rest) =
      some (joinParts parts, rest) := by
  induction parts with
  | nil => exact quotedBody_close rest
  | cons part parts ih =>
      have hparts := ih fun name hname => hnames name (List.mem_cons_of_mem part hname)
      rw [List.flatMap_cons, List.append_assoc]
      cases part with
      | text bytes =>
          rw [StringPart.spelling, quotedBody_escape bytes (spelling_head parts rest), hparts]
          rfl
      | var name =>
          have hname := hnames name List.mem_cons_self
          have hspelling : StringPart.spelling (.var name) ++
              (parts.flatMap StringPart.spelling ++ '"' :: rest) = '\x7b' :: '$' ::
                (name.toList ++ '\x7d' :: (parts.flatMap StringPart.spelling ++ '"' :: rest)) := by
            simp [StringPart.spelling]
          rw [hspelling, quotedBody_var hname, hparts]
          rfl

end TypedPhp.Read
