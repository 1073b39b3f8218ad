import TypedPhp.Proofs.Print.Expr
import TypedPhp.Proofs.Read.Quoted
import TypedPhp.Proofs.Runs.Basic

set_option autoImplicit false

/-!
# Literals in double quotes

An interpolated string is written as a literal in double quotes, whatever bytes its texts hold and
wherever they are cut. It is read back as its parts (`Node.interpolated_literal`): a text that ends
in a brace or a backslash does not reach into the variable after it, and a character whose encoding
is cut between two parts comes back as the bytes of both.

What is written between the quotes is a row of inert pieces: no quote in them is open, and none of
their bytes is a control character.
-/

namespace TypedPhp

namespace Read

/-! ## Literals -/

/-- A literal in double quotes at the start of a text: its parts, and what is left. -/
def quotedLiteral? : List Char → Option (List StringPart × List Char)
  | '"' :: text => quotedBody text
  | _ => none

/-- How many quotes of a text are open: no backslash escapes them. -/
def openQuotes : List Char → Nat
  | '\\' :: _ :: rest => openQuotes rest
  | '"' :: rest => openQuotes rest + 1
  | _ :: rest => openQuotes rest
  | [] => 0

/-- Whether a byte is a control character. -/
def isControl (b : UInt8) : Bool := b < 0x20 || b == 0x7f

/-- What a part holds, byte by byte, or its variable. -/
def StringPart.atoms : StringPart → List (UInt8 ⊕ String)
  | .text bytes => bytes.map .inl
  | .var name => [.inr name]

/-- No text is empty, and no two texts stand next to each other. -/
def Joined : List StringPart → Prop
  | [] => True
  | .text bytes :: parts => bytes ≠ [] ∧ (∀ more, parts.head? ≠ some (.text more)) ∧ Joined parts
  | .var _ :: parts => Joined parts

/-- The parts of a string with adjacent texts joined byte for byte and empty texts left out. -/
structure JoinOf (parts joined : List StringPart) : Prop where
  atoms : joined.flatMap StringPart.atoms = parts.flatMap StringPart.atoms
  joined : Joined joined

/-- A text is a literal in double quotes with the given parts. -/
structure IsLiteral (text : List Char) (parts : List StringPart) : Prop where
  /-- It is read as its parts, and nothing of what follows is. -/
  reads : ∃ joined, JoinOf parts joined ∧ ∀ rest, quotedLiteral? (text ++ rest) = some (joined, rest)
  /-- Behind the opening quote, the closing one is the only quote that is open. -/
  closed : ∃ body, text = '"' :: (body ++ ['"']) ∧ openQuotes body = 0 ∧
    openQuotes (body ++ ['"']) = 1
  printable : ∀ b ∈ text.flatMap String.utf8EncodeChar, isControl b = false

/-! ## Joined parts -/

variable {parts : List StringPart}

/-- Bytes before the parts of a string are the first that it holds. -/
theorem atoms_prependBytes (bytes : List UInt8) (parts : List StringPart) :
    (prependBytes bytes parts).flatMap StringPart.atoms =
      bytes.map .inl ++ parts.flatMap StringPart.atoms := by
  unfold prependBytes
  split
  · simp [StringPart.atoms]
  · by_cases hbytes : bytes = []
    · simp [hbytes]
    · simp [hbytes, StringPart.atoms]

/-- Bytes before joined parts are joined with them. -/
theorem joined_prependBytes (bytes : List UInt8) (h : Joined parts) :
    Joined (prependBytes bytes parts) := by
  unfold prependBytes
  split
  · rename_i more parts
    obtain ⟨hmore, hhead, hparts⟩ := h
    exact ⟨List.append_ne_nil_of_right_ne_nil bytes hmore, hhead, hparts⟩
  · rename_i hhead
    by_cases hbytes : bytes = []
    · rw [if_pos hbytes]
      exact h
    · rw [if_neg hbytes]
      refine ⟨hbytes, ?_, h⟩
      intro more hmore
      obtain ⟨rest, rfl⟩ := List.head?_eq_some_iff.1 hmore
      exact hhead _ _ rfl

/-- Joining keeps what a string holds. -/
theorem joinOf_joinParts (parts : List StringPart) : JoinOf parts (joinParts parts) := by
  induction parts with
  | nil => exact ⟨rfl, trivial⟩
  | cons part parts ih =>
      cases part with
      | text bytes =>
          constructor
          · rw [joinParts, atoms_prependBytes, ih.atoms, List.flatMap_cons, StringPart.atoms]
          · exact joined_prependBytes bytes ih.joined
      | var name =>
          constructor
          · rw [joinParts, List.flatMap_cons, List.flatMap_cons, ih.atoms]
          · exact ih.joined

/-! ## Inert pieces -/

/-- No quote of a piece of text is open, whatever follows, and none of its bytes is a control
character. -/
structure Inert (piece : List Char) : Prop where
  quotes : ∀ rest, openQuotes (piece ++ rest) = openQuotes rest
  printable : ∀ b ∈ piece.flatMap String.utf8EncodeChar, isControl b = false

/-- A character that is neither a quote nor a backslash opens none. -/
theorem openQuotes_cons {c : Char} (hquote : c ≠ '"') (hbackslash : c ≠ '\\') (rest : List Char) :
    openQuotes (c :: rest) = openQuotes rest := by
  rw [openQuotes]
  · intro d more heq
    exact absurd heq hbackslash
  · exact hquote

/-- A byte is a control character by its number. -/
theorem isControl_ofNat {n : Nat} (hn : n < 256) :
    isControl (UInt8.ofNat n) = decide (n < 0x20 ∨ n = 0x7f) := by
  have htoNat : (UInt8.ofNat n).toNat = n := UInt8.toNat_ofNat_of_lt' hn
  simp only [isControl, UInt8.lt_iff_toNat_lt, htoNat, Bool.decide_or]
  congr 1
  rw [Bool.eq_iff_iff, beq_iff_eq, ← UInt8.toNat_inj, htoNat, decide_eq_true_eq]
  rfl

/-- No byte of a character is a control character unless the character is one. -/
theorem not_isControl_of_char {c : Char} (h : ¬ (c.toNat < 0x20 ∨ c.toNat = 0x7f)) :
    ∀ b ∈ String.utf8EncodeChar c, isControl b = false := by
  by_cases hc : c.toNat < 128
  · rw [utf8EncodeChar_ascii hc]
    intro b hb
    obtain rfl := List.mem_singleton.1 hb
    rw [isControl_ofNat (by omega)]
    exact decide_eq_false h
  · -- The encoding of every other character is of bytes from 128 on.
    have hhigh : ∀ n, 128 ≤ n → n < 256 → isControl (UInt8.ofNat n) = false := by
      intro n hlow hlt
      rw [isControl_ofNat hlt]
      exact decide_eq_false (by omega)
    have hvalue : ¬ c.val.toNat ≤ 127 := by
      intro hle
      exact hc (Nat.lt_succ_of_le hle)
    intro b hb
    unfold String.utf8EncodeChar at hb
    rw [if_neg hvalue] at hb
    split_ifs at hb
    all_goals
      simp only [List.mem_cons, List.not_mem_nil, or_false] at hb
      rcases hb with rfl | rfl | rfl | rfl
      all_goals exact hhigh _ (by omega) (by omega)

namespace Inert

variable {xs ys : List Char}

theorem nil : Inert [] := ⟨fun _ => rfl, by simp⟩

theorem append (hx : Inert xs) (hy : Inert ys) : Inert (xs ++ ys) := by
  constructor
  · intro rest
    rw [List.append_assoc, hx.quotes, hy.quotes]
  · intro b hb
    rw [List.flatMap_append] at hb
    rcases List.mem_append.1 hb with hb | hb
    · exact hx.printable b hb
    · exact hy.printable b hb

/-- A character that needs no escape. -/
theorem char {c : Char} (hquote : c ≠ '"') (hbackslash : c ≠ '\\')
    (hcontrol : ¬ (c.toNat < 0x20 ∨ c.toNat = 0x7f)) : Inert [c] := by
  constructor
  · exact openQuotes_cons hquote hbackslash
  · rw [List.flatMap_singleton]
    exact not_isControl_of_char hcontrol

/-- A row of characters none of which needs an escape. -/
theorem run (h : ∀ c ∈ xs, c ≠ '"' ∧ c ≠ '\\' ∧ ¬ (c.toNat < 0x20 ∨ c.toNat = 0x7f)) :
    Inert xs := by
  induction xs with
  | nil => exact nil
  | cons c xs ih =>
      obtain ⟨hquote, hbackslash, hcontrol⟩ := h c List.mem_cons_self
      have htail : Inert xs := ih fun d hd => h d (List.mem_cons_of_mem c hd)
      exact (char hquote hbackslash hcontrol).append htail

/-- A backslash and the character that it escapes. -/
theorem escaped {c : Char} (hcontrol : ¬ (c.toNat < 0x20 ∨ c.toNat = 0x7f)) : Inert ['\\', c] := by
  constructor
  · intro rest
    rfl
  · intro b hb
    rw [List.flatMap_cons, List.flatMap_singleton] at hb
    rcases List.mem_append.1 hb with hb | hb
    · exact not_isControl_of_char (by decide) b hb
    · exact not_isControl_of_char hcontrol b hb

/-- A byte as a hexadecimal escape. -/
theorem hexEscape (n : Nat) : Inert (Text.hexEscape n) := by
  have hall : ∀ k : Fin 16, Nat.digitChar k.val ≠ '"' ∧ Nat.digitChar k.val ≠ '\\' ∧
      ¬ ((Nat.digitChar k.val).toNat < 0x20 ∨ (Nat.digitChar k.val).toNat = 0x7f) := by decide
  have hdigits : Inert [Text.hexDigit (n / 16), Text.hexDigit n] := by
    apply run
    intro c hc
    rcases List.mem_cons.1 hc with rfl | hc
    · exact hall ⟨n / 16 % 16, Nat.mod_lt _ (by decide)⟩
    · obtain rfl := List.mem_singleton.1 hc
      exact hall ⟨n % 16, Nat.mod_lt _ (by decide)⟩
  have hescape : Inert ['\\', 'x'] := escaped (by decide)
  exact hescape.append hdigits

/-- A character that is escaped as needed. -/
theorem escapeChar (c : Char) : Inert (Text.escapeChar c) := by
  unfold Text.escapeChar
  split_ifs with hn hr ht hv he hf hself hcontrol
  · exact escaped (by decide)
  · exact escaped (by decide)
  · exact escaped (by decide)
  · exact escaped (by decide)
  · exact escaped (by decide)
  · exact escaped (by decide)
  · rcases hself with rfl | rfl | rfl
    all_goals exact escaped (by decide)
  · exact hexEscape c.toNat
  · exact char (fun h => hself (Or.inl h)) (fun h => hself (Or.inr (Or.inl h))) hcontrol

/-- What is written for some bytes is inert. -/
theorem escape (bytes : List UInt8) : Inert (Text.escape bytes) := by
  apply escapeInduction (motive := fun _ text => Inert text)
  · exact nil
  · intro c bytes text ih
    exact (escapeChar c).append ih
  · intro b bytes text ih
    exact (hexEscape b.toNat).append ih

/-- A name. -/
theorem identifier {s : String} (h : isIdentifier s = true) : Inert s.toList := by
  obtain ⟨c, rest, heq, hstart, hrest⟩ := exists_of_isIdentifier h
  have hchars : ∀ d ∈ s.toList, identChar d = true := by
    intro d hd
    rw [heq] at hd
    rcases List.mem_cons.1 hd with rfl | hd
    · rw [identChar, hstart]
      rfl
    · exact hrest d hd
  apply run
  intro d hd
  have hchar := hchars d hd
  refine ⟨?_, ?_, ?_⟩
  · rintro rfl
    exact absurd hchar (by decide)
  · rintro rfl
    exact absurd hchar (by decide)
  -- Control characters are among the first 128, so it is enough to look through these.
  · have hall : ∀ n : Fin 128, (n.val < 0x20 ∨ n.val = 0x7f) →
        identChar (Char.ofNat n.val) = false := by decide
    intro hcontrol
    have hfalse := hall ⟨d.toNat, by omega⟩ hcontrol
    rw [Char.ofNat_toNat, hchar] at hfalse
    cases hfalse

/-- What is written for a part. -/
theorem spelling {part : StringPart} (h : ∀ name, part = .var name → isIdentifier name = true) :
    Inert part.spelling := by
  cases part with
  | text bytes => exact escape bytes
  | var name =>
      have hopen : Inert ['\x7b', '$'] := run (by simp)
      have hclose : Inert ['\x7d'] := run (by simp)
      exact hopen.append ((identifier (h name rfl)).append hclose)

/-- What is written for several parts. -/
theorem spellings (h : ∀ name, .var name ∈ parts → isIdentifier name = true) :
    Inert (parts.flatMap StringPart.spelling) := by
  induction parts with
  | nil => exact nil
  | cons part parts ih =>
      have hparts := ih fun name hname => h name (List.mem_cons_of_mem part hname)
      have hpart : Inert part.spelling := by
        apply spelling
        rintro name rfl
        exact h name List.mem_cons_self
      rw [List.flatMap_cons]
      exact hpart.append hparts

end Inert

/-! ## What is written -/

/-- The parts of a string between quotes are a literal with these parts. -/
theorem isLiteral_spelling (h : ∀ name, .var name ∈ parts → isIdentifier name = true) :
    IsLiteral ('"' :: (parts.flatMap StringPart.spelling ++ ['"'])) parts := by
  have hbody : Inert (parts.flatMap StringPart.spelling) := .spellings h
  constructor
  · refine ⟨joinParts parts, joinOf_joinParts parts, ?_⟩
    intro rest
    have hread := quotedBody_parts h rest
    simpa [quotedLiteral?] using hread
  · refine ⟨_, rfl, ?_, ?_⟩
    · have hquotes := hbody.quotes []
      rw [List.append_nil] at hquotes
      exact hquotes
    · exact hbody.quotes ['"']
  · have hquote : ∀ b ∈ String.utf8EncodeChar '"', isControl b = false :=
      not_isControl_of_char (by decide)
    intro b hb
    simp only [List.flatMap_cons, List.flatMap_append, List.flatMap_nil, List.append_nil,
      List.mem_append] at hb
    rcases hb with hb | hb | hb
    · exact hquote b hb
    · exact hbody.printable b hb
    · exact hquote b hb

end Read

open Read (StringPart IsLiteral)

/-- A node stands for a part of a string: a string literal, or a variable with its name. -/
inductive Node.Presents : Node → StringPart → Prop where
  | text {n : Node} {bytes : List UInt8} : n.op ≠ .var → n.literal? = some (.string bytes) →
      Presents n (.text bytes)
  | var {n : Node} {name : String} : n.op = .var → n.ident? = some name →
      Read.isIdentifier name = true → Presents n (.var name)

namespace Print

variable {args : List Node} {parts : List StringPart}

/-- A variable is written with its name, whatever else the node carries. -/
theorem expr_var {n : Node} {name : String} (hop : n.op = .var) (hname : n.ident? = some name) :
    expr n = .ok ('$' :: name.toList) := by
  cases n with
  | mk op args payload type =>
      obtain rfl : op = .var := hop
      rw [expr]
      simp only [assemble, Node.op, needName, hname]
      rfl

/-- The text of an interpolated string is that of its parts. -/
theorem interpolation_spelling (h : List.Forall₂ Node.Presents args parts) :
    interpolation args (args.map expr) = .ok (parts.flatMap StringPart.spelling) := by
  induction h with
  | nil => rfl
  | cons hpart _ ih =>
      rw [List.map_cons, interpolation, ih, List.flatMap_cons]
      cases hpart with
      | text hop hbytes =>
          rw [if_neg hop, hbytes]
          rfl
      | var hop hname hident =>
          rw [if_pos hop, expr_var hop hname]
          rfl

end Print

theorem Node.Presents.isIdentifier {n : Node} {name : String} (h : n.Presents (.var name)) :
    Read.isIdentifier name = true := by
  cases h with
  | var _ _ hident => exact hident

theorem StringPart.isIdentifier_of_text (bytes : List UInt8) :
    ∀ name, StringPart.var name ∈ [StringPart.text bytes] → Read.isIdentifier name = true := by
  simp

theorem Text.isLiteral_quote (bytes : List UInt8) : IsLiteral (Text.quote bytes) [.text bytes] := by
  have h := Read.isLiteral_spelling (StringPart.isIdentifier_of_text bytes)
  rw [List.flatMap_singleton] at h
  exact h

/-- A byte string in quotes is read back as exactly these bytes. -/
theorem Text.quotedLiteral?_quote (bytes : List UInt8) (rest : List Char) :
    Read.quotedLiteral? (Text.quote bytes ++ rest) =
      some (if bytes = [] then [] else [.text bytes], rest) := by
  have hread := Read.quotedBody_parts (StringPart.isIdentifier_of_text bytes) rest
  rw [List.flatMap_singleton] at hread
  rw [Text.quote, List.append_assoc]
  exact hread

/-- An interpolated string is written as a literal with its parts, and a byte string as a
literal with this one text, which is left out where it is empty. -/
theorem Node.interpolated_literal {args : List Node} {parts : List StringPart}
    (h : List.Forall₂ Node.Presents args parts) (payload : Option Payload) (type : Option Ty) :
    (∃ text, Print.expr (.mk .interpolated args payload type) = .ok text ∧
      IsLiteral text parts) ∧
    ∀ bytes, IsLiteral (Text.quote bytes) [.text bytes] ∧ ∀ rest,
      Read.quotedLiteral? (Text.quote bytes ++ rest) =
        some (if bytes = [] then [] else [.text bytes], rest) := by
  have hnames : ∀ part ∈ parts, ∀ name, part = .var name → Read.isIdentifier name = true := by
    refine forall₂_right (h.imp fun n part hpart => ?_)
    rintro name rfl
    exact hpart.isIdentifier
  constructor
  · refine ⟨_, ?_, Read.isLiteral_spelling fun name hname => hnames _ hname name rfl⟩
    rw [Print.expr, Print.exprEach_eq_map, Print.assemble]
    simp only [Node.op, Node.args, Print.interpolation_spelling h]
    rfl
  · intro bytes
    exact ⟨Text.isLiteral_quote bytes, Text.quotedLiteral?_quote bytes⟩

/-- A character that is cut between two texts, a brace before a variable, and an escaped control
character before a hexadecimal digit. -/
theorem Node.interpolated_literal_cut :
    let args := [.stringLit [0xe2, 0x82], .stringLit [0xac, 0x7b], .var "v1" .string,
      .stringLit [0x01, 0x62, 0x5c]]
    let parts := [.text [0xe2, 0x82], .text [0xac, 0x7b], .var "v1", .text [0x01, 0x62, 0x5c]]
    List.Forall₂ Node.Presents args parts ∧
      ∃ text, Print.expr (.mk .interpolated args none none) = .ok text ∧ IsLiteral text parts := by
  intro args parts
  have htext : ∀ bytes, (Node.stringLit bytes).Presents (.text bytes) := by
    intro bytes
    exact .text nofun rfl
  have hvar : (Node.var "v1" .string).Presents (.var "v1") := .var rfl rfl (by decide)
  have h : List.Forall₂ Node.Presents args parts :=
    .cons (htext _) (.cons (htext _) (.cons hvar (.cons (htext _) .nil)))
  exact ⟨h, (Node.interpolated_literal h none none).1⟩

end TypedPhp
