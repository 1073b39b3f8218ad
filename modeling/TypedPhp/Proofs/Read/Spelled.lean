import TypedPhp.Proofs.Read.Interpolated
import TypedPhp.Proofs.Read.Printed

set_option autoImplicit false

/-!
# Tokens of expressions

Every node of an expression contributes its tokens, around and between those of its children
(`Node.tokens`). A node is spelled if it has the children and the payload of its operator, and if
its names are names. Literals are read as their tokens (`Literal.lexes`).
-/

namespace TypedPhp

open Read (Token StringPart Lexes isIdentifier isName joinParts commaTokens)

/-! ## Spelled nodes -/

/-- The operators of compound assignments. -/
def Op.compound : List Op :=
  [.add, .sub, .mul, .div, .mod, .exp, .concat, .bitAnd, .bitOr, .bitXor, .shiftLeft, .shiftRight,
   .nullCoalesce]

/-- A node of an expression with the children and the payload of its operator, and with names
that can be read as such. -/
inductive Node.Spelled : Node → Prop where
  | parens (x : Node) (type : Option Ty) : Spelled (.mk .parens [x] none type)
  | null (type : Option Ty) : Spelled (.mk .null [] none type)
  | literal (l : Literal) (type : Option Ty) :
      Spelled (.mk (literalOp l) [] (some (.literal l)) type)
  | interpolated {parts : List Node} (type : Option Ty) :
      (∀ p ∈ parts, p.op = .var ∨ ∃ bytes, p.literal? = some (.string bytes)) →
      Spelled (.mk .interpolated parts none type)
  | arrayLit (elems : List Node) (type : Option Ty) : Spelled (.mk .arrayLit elems none type)
  | tupleLit (elems : List Node) (type : Option Ty) : Spelled (.mk .tupleLit elems none type)
  | var {s : String} (type : Option Ty) : isIdentifier s = true →
      Spelled (.mk .var [] (some (.ident s)) type)
  | name {s : String} (type : Option Ty) : isName s = true →
      Spelled (.mk .name [] (some (.ident s)) type)
  | new {s : String} (type : Option Ty) : isName s = true →
      Spelled (.mk .new [] (some (.ident s)) type)
  | prop (x : Node) {s : String} (type : Option Ty) : isIdentifier s = true →
      Spelled (.mk .prop [x] (some (.ident s)) type)
  | methodCall (x : Node) (args : List Node) {s : String} (type : Option Ty) :
      isIdentifier s = true → Spelled (.mk .methodCall (x :: args) (some (.ident s)) type)
  | call (callee : Node) (args : List Node) (type : Option Ty) :
      Spelled (.mk .call (callee :: args) none type)
  | index (x key : Node) (type : Option Ty) : Spelled (.mk .index [x, key] none type)
  | cast (x : Node) {t : Ty} : t.castKeyword?.isSome = true →
      Spelled (.mk .cast [x] none (some t))
  | ternary (cond x y : Node) (type : Option Ty) : Spelled (.mk .ternary [cond, x, y] none type)
  | unary {op : Op} (x : Node) (type : Option Ty) : op ∈ Op.unary → Spelled (.mk op [x] none type)
  | binary {op : Op} (x y : Node) (type : Option Ty) : op.isBinary = true →
      Spelled (.mk op [x, y] none type)
  | assign (lhs rhs : Node) (type : Option Ty) : Spelled (.mk .assign [lhs, rhs] none type)
  | assignModify {op : Op} (lhs rhs : Node) (type : Option Ty) : op ∈ Op.compound →
      Spelled (.mk .assignModify [lhs, rhs] (some (.op op)) type)

/-! ## Tokens -/

/-- The tokens of a literal; a minus is one of its own. -/
def Literal.tokens : Literal → List Token
  | .bool true => [.word "true"]
  | .bool false => [.word "false"]
  | .int v =>
    (if v.toInt < 0 then [.symbol "-"] else []) ++ [.number (Nat.toDigits 10 v.toInt.natAbs)]
  | .float x =>
    if x.isNaN then [.word "NAN"]
    else (if x.isNegative then [.symbol "-"] else []) ++
      [if x.magnitude = Double.infiniteMagnitude then .word "INF"
       else .number (Double.formatMagnitude .literal x.magnitude)]
  | .string bytes => [.quoted (joinParts [.text bytes])]

/-- The token of an infix operator. -/
def Op.infixToken : Op → Token
  | .andWord => .word "and"
  | .orWord => .word "or"
  | .xorWord => .word "xor"
  | op => .symbol (op.token?.getD "")

namespace Node

/-- The name that a node carries, if it has one. -/
def label (n : Node) : String := n.ident?.getD ""

/-- A part of an interpolated string. -/
def part (n : Node) : StringPart :=
  if n.op = .var then .var n.label
  else
    match n.literal? with
    | some (.string bytes) => .text bytes
    | _ => .text []

/-- The tokens of a node, from those of its children. -/
def spell (n : Node) (parts : List (List Token)) : List Token :=
  let child (i : Nat) : List Token := parts.getD i []
  let arguments : List Token := commaTokens (parts.drop 1)
  match n.op with
  | .parens => .symbol "(" :: (child 0 ++ [.symbol ")"])
  | .null => [.word "null"]
  | .boolLit | .intLit | .floatLit | .stringLit => (n.literal?.map Literal.tokens).getD []
  | .interpolated => [.quoted (joinParts (n.args.map part))]
  | .arrayLit => .symbol "[" :: (commaTokens parts ++ [.symbol "]"])
  | .tupleLit => .word "tuple" :: .symbol "(" :: (commaTokens parts ++ [.symbol ")"])
  | .var => [.var n.label]
  | .name => [.word n.label]
  | .new => [.word "new", .word n.label, .symbol "(", .symbol ")"]
  | .prop => child 0 ++ [.symbol "->", .word n.label]
  | .methodCall =>
    child 0 ++ [.symbol "->", .word n.label] ++ .symbol "(" :: (arguments ++ [.symbol ")"])
  | .call => child 0 ++ .symbol "(" :: (arguments ++ [.symbol ")"])
  | .index => child 0 ++ .symbol "[" :: (child 1 ++ [.symbol "]"])
  | .cast => .cast ((n.type.bind Ty.castKeyword?).getD "") :: child 0
  | .ternary => child 0 ++ .symbol "?" :: (child 1 ++ .symbol ":" :: child 2)
  | .assign => child 0 ++ .symbol "=" :: child 1
  | .assignModify =>
    match n.payload with
    | some (.op op) => child 0 ++ .symbol (op.token?.getD "" ++ "=") :: child 1
    | _ => []
  | .postInc => child 0 ++ [.symbol "++"]
  | .postDec => child 0 ++ [.symbol "--"]
  | .not | .negation | .unaryPlus | .bitNot | .preInc | .preDec =>
    .symbol (n.op.token?.getD "") :: child 0
  | op => child 0 ++ op.infixToken :: child 1

mutual

/-- The tokens of an expression, in the order in which its nodes contribute them. -/
def tokens : Node → List Token
  | .mk op args payload type => spell (.mk op args payload type) (tokensEach args)

/-- The tokens of several expressions. -/
def tokensEach : List Node → List (List Token)
  | [] => []
  | n :: ns => tokens n :: tokensEach ns

end

theorem tokensEach_eq_map : ∀ ns : List Node, tokensEach ns = ns.map tokens
  | [] => rfl
  | n :: ns => by
      rw [tokensEach, tokensEach_eq_map ns]
      rfl

end Node

/-! ## Literals -/

/-- A number, or a word, after a minus if it has one. -/
theorem Read.Lexes.minus {x : List Char} {ts : List Token} {negative : Prop} [Decidable negative]
    (h : Lexes x ts) (hx : ∀ c ∈ x.head?, c ≠ '-' ∧ c ≠ '+') :
    Lexes ((if negative then ['-'] else []) ++ x)
      ((if negative then [.symbol "-"] else []) ++ ts) := by
  split
  · refine h.sign (s := "-") (by decide) ?_
    rintro ⟨-, hminus | hplus⟩
    · exact (hx '-' hminus).1 rfl
    · exact (hx '+' hplus).2 rfl
  · exact h

/-- A numeral begins with no sign. -/
theorem Read.Numeral.unsigned {x : List Char} (h : Read.Numeral x) :
    ∀ c ∈ x.head?, c ≠ '-' ∧ c ≠ '+' := by
  obtain ⟨d, tail, rfl, hd⟩ := h.head
  intro c hc
  obtain rfl := Option.some.inj hc
  constructor
  all_goals
    rintro rfl
    exact absurd hd (by decide)

/-- A literal is read as its tokens. -/
theorem Literal.lexes (l : Literal) : Lexes l.text l.tokens := by
  cases l with
  | bool v =>
      cases v with
      | true => exact .word (s := "true") (by decide) (by decide)
      | false => exact .word (s := "false") (by decide) (by decide)
  | int v =>
      -- A minus is a token of its own, before the digits of the magnitude.
      have hnumeral := Read.numeral_toDigits v.toInt.natAbs
      rw [Literal.text, Read.toString_int]
      exact (Lexes.number hnumeral).minus hnumeral.unsigned
  | float x =>
      rw [Literal.text, Literal.tokens, Double.format]
      split
      · exact .word (s := "NAN") (by decide) (by decide)
      · by_cases hm : x.magnitude = Double.infiniteMagnitude
        · rw [if_pos hm, hm, Double.formatMagnitude_infinite]
          have hword : Lexes "INF".toList [.word "INF"] := .word (by decide) (by decide)
          refine hword.minus fun c hc => ?_
          obtain rfl := Option.some.inj hc
          decide
        · have hnumeral := (Double.formatMagnitude_numeral hm).numeral
          rw [if_neg hm]
          exact (Lexes.number hnumeral).minus hnumeral.unsigned
  | string bytes =>
      have hnames : ∀ name, StringPart.var name ∈ [StringPart.text bytes] →
          isIdentifier name = true := by simp
      have hquoted := Lexes.quoted hnames
      rw [List.flatMap_singleton] at hquoted
      exact hquoted

/-! ## Names and operators -/

theorem Read.isName_cases {s : String} (h : isName s = true) :
    isIdentifier s = true ∧ Read.castWords.lookup (Read.lower s) = none := by
  simp only [isName, Bool.and_eq_true, Option.isNone_iff_eq_none] at h
  exact ⟨h.1.1.1, h.1.2⟩

/-- The keyword of a cast is the name of its type. -/
theorem Ty.castKeyword_cases {t : Ty} {keyword : String} (h : t.castKeyword? = some keyword) :
    isIdentifier keyword = true ∧ Read.castWords.lookup (Read.lower keyword) = some keyword := by
  have hall : ∀ keyword ∈ ["bool", "int", "float", "string", "array"],
      isIdentifier keyword = true ∧ Read.castWords.lookup (Read.lower keyword) = some keyword := by
    decide
  have hscalar : ∀ k : Scalar, scalarCast? k = some keyword →
      keyword ∈ ["bool", "int", "float", "string", "array"] := by
    intro k hk
    cases k <;> cases hk <;> decide
  apply hall
  cases t with
  | scalar k => exact hscalar k h
  | enum e => exact hscalar e.kind h
  | array e =>
      obtain rfl := Option.some.inj h
      decide
  | _ => cases h

theorem Op.compound_symbol {op : Op} (h : op ∈ compound) :
    ∃ s, op.token? = some s ∧ s ++ "=" ∈ Read.symbols ∧ s ++ "=" ≠ "(" := by
  have hall : ∀ op ∈ compound, ∃ s, op.token? = some s ∧ s ++ "=" ∈ Read.symbols ∧
      s ++ "=" ≠ "(" := by decide
  exact hall op h

theorem Op.isBinary_of_compound {op : Op} (h : op ∈ compound) : op.isBinary = true := by
  have hall : ∀ op ∈ compound, op.isBinary = true := by decide
  exact hall op h

/-- An infix operator is a word or a symbol. -/
theorem Op.infixToken_cases {op : Op} (h : op.isBinary = true) : ∃ s, op.token? = some s ∧
    (op.infixToken = .word s ∧ isIdentifier s = true ∨
      op.infixToken = .symbol s ∧ s ∈ Read.symbols ∧ s ≠ "(") := by
  cases op with
  | andWord | orWord | xorWord => exact ⟨_, rfl, .inl ⟨rfl, by decide⟩⟩
  | _ => first | exact ⟨_, rfl, .inr ⟨rfl, by decide, by decide⟩⟩ | cases h

namespace Node

variable {op : Op} {x y : Node} {type : Option Ty} {parts : List (List Token)}

theorem spell_binary (h : op.isBinary = true) : spell (.mk op [x, y] none type) parts =
    parts.getD 0 [] ++ op.infixToken :: parts.getD 1 [] := by
  cases op <;> first | rfl | cases h

theorem spell_cast {t : Ty} {keyword : String} {ts : List Token}
    (h : t.castKeyword? = some keyword) :
    spell (.mk .cast [x] none (some t)) [ts] = .cast keyword :: ts := by
  simp [spell, Node.op, Node.type, h]

theorem spell_signed (h : op ∈ Op.leading) :
    spell (.mk op [x] none type) parts = .symbol (op.token?.getD "") :: parts.getD 0 [] := by
  revert h
  cases op <;> first | exact fun _ => rfl | exact fun h => absurd h (by decide)

end Node

end TypedPhp
