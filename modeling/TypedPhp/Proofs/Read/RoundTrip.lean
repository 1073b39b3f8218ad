import TypedPhp.Proofs.Read.OperandSafe
import TypedPhp.Proofs.Read.Separation

set_option autoImplicit false

/-!
# Expressions are read back

The writer adds no parentheses and the reader knows only the table of operators. On operand-safe
expressions the two fit together: the text of the expression is read as its tokens, and the tokens
as the tree that is left of it without static types, signs of numbers and literal strings
(`Node.read_back`).

The induction is on the tree. What a node is read as depends on where it stands, so the tokens of
its children are read as atoms where something is linked to them, as operands beside an operator,
and as expressions in brackets (`Node.Readable`). A cast is the one operand that a power could
reach into, and a negative number the one literal that is two tokens.
-/

namespace TypedPhp

open Read (Token Leaf Term IsAtom IsLinked IsOperand IsExpr joinParts isName)

/-! ## Literals -/

namespace Read

variable {us : List Token} {x : Term} {negative : Prop} [Decidable negative]

/-- An atom after a minus, if it has one. -/
theorem IsAtom.signed (h : IsAtom us x) :
    IsOperand ((if negative then [.symbol "-"] else []) ++ us) (.signed negative x) := by
  rw [Term.signed]
  split
  · have hentry : prefix? (.symbol "-") = some ⟨.negation, 20, none⟩ := rfl
    exact h.linked.operand.prefixed hentry (by decide) rfl
  · exact h.linked.operand

theorem IsAtom.unsigned (h : IsAtom us x) (hnegative : ¬ negative) :
    IsAtom ((if negative then [.symbol "-"] else []) ++ us) (.signed negative x) := by
  rw [Term.signed, if_neg hnegative, if_neg hnegative]
  exact h

/-- The digits of a number are read as this number. -/
theorem number?_toDigits {n : Nat} (hn : n < Nat.pow 2 63) :
    number? (Nat.toDigits 10 n) = some (.atom .intLit (.int n)) := by
  have hdigits : (Nat.toDigits 10 n).all Char.isDigit = true :=
    List.all_eq_true.2 (digits_toDigits n)
  have hvalue : Nat.ofDigitChars 10 (Nat.toDigits 10 n) 0 = n :=
    Nat.ofDigitChars_toDigits (by decide) (by decide)
  rw [number?, if_pos hdigits, hvalue, if_neg (fun h => h rfl), if_pos hn]

theorem number?_float {text : List Char} (h : ¬ Digits text) :
    number? text = some (.atom .floatLit (.float text)) :=
  if_neg fun hall => h (List.all_eq_true.1 hall)

/-- A name is read as itself. -/
theorem word?_name {s : String} (hs : isName s = true) :
    lower s ≠ "new" ∧ lower s ≠ "tuple" ∧ word? s = some (.atom .name (.name s)) := by
  have hparts := hs
  simp only [isName, Bool.and_eq_true, Bool.not_eq_true'] at hparts
  obtain ⟨⟨⟨-, hkeyword⟩, -⟩, hfloat⟩ := hparts
  have hne : ∀ k ∈ keywords, lower s ≠ k := by
    rintro k hk rfl
    rw [List.contains_eq_mem, decide_eq_false_iff_not] at hkeyword
    exact hkeyword hk
  have hconstant : constants.lookup (lower s) = none := by
    have hall : ∀ e ∈ constants, e.1 ∈ keywords := by decide
    exact List.lookup_eq_none_iff.2 fun e he => bne_iff_ne.2 (hne e.1 (hall e he))
  refine ⟨hne "new" (by decide), hne "tuple" (by decide), ?_⟩
  rw [word?, hconstant]
  dsimp only
  rw [if_neg (by rw [hfloat]; decide), if_pos hs]

end Read

/-- The absolute value of an integer other than the least is one itself. -/
theorem natAbs_lt {v : Int64} (hv : v ≠ Int64.minValue) : v.toInt.natAbs < Nat.pow 2 63 := by
  have hne : v.toInt ≠ -2 ^ 63 := by
    intro h
    exact hv (Int64.toInt_inj.1 (h.trans Int64.toInt_minValue.symm))
  have hle := v.le_toInt
  have hlt := v.toInt_lt
  change v.toInt.natAbs < 9223372036854775808
  omega

/-- The digits of a float, or the word for infinity. -/
theorem Double.magnitude_atom (m : Nat) :
    IsAtom [if m = infiniteMagnitude then .word "INF" else .number (formatMagnitude .literal m)]
      (.atom .floatLit (.float (formatMagnitude .literal m))) := by
  split
  · rename_i hm
    rw [hm, formatMagnitude_infinite]
    exact .word (by decide) (by decide) rfl
  · rename_i hm
    exact .number (Read.number?_float (formatMagnitude_numeral hm).notWhole)

namespace Literal

/-- A literal without a minus is read as an atom. -/
theorem atom {l : Literal} {type : Option Ty} (hl : l ≠ .int Int64.minValue)
    (hsimple : (Node.mk (Node.literalOp l) [] (some (.literal l)) type).isSimple = true) :
    IsAtom l.tokens l.strip := by
  cases l with
  | bool v =>
      cases v with
      | true => exact .word (by decide) (by decide) rfl
      | false => exact .word (by decide) (by decide) rfl
  | int v =>
      have hv : v ≠ Int64.minValue := fun h => hl (congrArg Literal.int h)
      -- A simple integer is not negative, so its tokens are its digits alone.
      have hle : 0 ≤ v := of_decide_eq_true hsimple
      refine (IsAtom.number (Read.number?_toDigits (natAbs_lt hv))).unsigned ?_
      rw [Int64.le_iff_toInt_le] at hle
      exact Int.not_lt.2 hle
  | float x =>
      have hsign : (!x.isNaN && !x.isNegative) = true := hsimple
      simp only [Bool.and_eq_true, Bool.not_eq_true'] at hsign
      rw [tokens, strip, hsign.1]
      refine (Double.magnitude_atom x.magnitude).unsigned ?_
      rw [hsign.2]
      decide
  | string bytes => exact .quoted _

/-- A literal is read as what is left of it. -/
theorem operand {l : Literal} (hl : l ≠ .int Int64.minValue) : IsOperand l.tokens l.strip := by
  cases l with
  | bool v =>
      have hsimple : (Node.mk .boolLit [] (some (.literal (.bool v))) none).isSimple = true := rfl
      exact (atom hl hsimple).linked.operand
  | int v =>
      have hv : v ≠ Int64.minValue := fun h => hl (congrArg Literal.int h)
      exact (IsAtom.number (Read.number?_toDigits (natAbs_lt hv))).signed
  | float x =>
      rw [tokens, strip]
      split
      · exact (IsAtom.word (by decide) (by decide) rfl).linked.operand
      · exact (Double.magnitude_atom x.magnitude).signed
  | string bytes => exact (IsAtom.quoted _).linked.operand

end Literal

/-! ## Operators -/

namespace Op

theorem infix_entry {op : Op} (h : op.isBinary = true) : ∃ i, Read.infix? op.infixToken = some i ∧
    i.op = op ∧ (op = .exp ∨ i.level < 18) ∧ (op.isLow = false → 6 ≤ i.level) := by
  cases op <;> first | exact ⟨_, rfl, rfl, by decide, by decide⟩ | cases h

theorem prefix_entry {op : Op} (h : op ∈ leading) :
    ∃ level, Read.prefix? (.symbol (op.token?.getD "")) = some ⟨op, level, none⟩ ∧ 18 ≤ level := by
  revert h
  cases op <;> first | exact fun _ => ⟨_, rfl, by decide⟩ | exact fun h => absurd h (by decide)

end Op

/-! ## Nodes -/

namespace Node

variable {op : Op} {type : Option Ty}

/-- A node of an operator other than a step after its operand keeps its operator and its children,
and needs parentheses as an operand. -/
theorem operator_node (args : List Node) (type : Option Ty)
    (h : op.isBinary = true ∨ op ∈ Op.leading) :
    (∀ ts, stripOver (.mk op args none type) ts = .ofArgs op ts) ∧ rootOps.contains op = false ∧
      ¬ (mk op args none type).Bare := by
  revert h
  cases op <;> first
    | exact fun h => absurd h (by decide)
    | exact fun _ => ⟨fun _ => rfl, rfl, by rintro (h | h) <;> cases h⟩

/-- The operand of a sign stands beside it. -/
theorem operands_sign (args : List Node) (type : Option Ty)
    (h : op ∈ [.not, .negation, .unaryPlus, .bitNot]) : (mk op args none type).operands = args := by
  revert h
  cases op <;> first
    | exact fun h => absurd h (by decide)
    | exact fun _ => rfl

theorem isPlace_strip {x : Node} (h : x.op = .var) : x.strip.isPlace = true := by
  rw [strip_eq, stripOver, h]
  rfl

/-- A variable is read as an atom. -/
theorem Readable.variable {x : Node} (h : x.Readable) (hop : x.op = .var) :
    IsAtom x.tokens x.strip := by
  apply h.atom
  rw [hop]
  rfl

/-- A safe node with one operand is read as what is left of it if the operand is. -/
theorem Safe.unary_readable {x : Node} (h : (Node.mk op [x] none type).Safe) (hop : op ∈ Op.unary)
    (hx : x.Readable) : (Node.mk op [x] none type).Readable := by
  have hvar : op ∈ [.preInc, .preDec, .postInc, .postDec] → x.op = .var := fun hmem =>
    h.steps hmem x List.mem_cons_self
  rcases Op.unary_cases hop with rfl | rfl | hleading
  · have hplace := hvar (by decide)
    have hmem : ("++", Op.postInc) ∈ Read.postfixSymbols := by decide
    exact .of_linked rfl ((hx.variable hplace).postfixed hmem (isPlace_strip hplace))
  · have hplace := hvar (by decide)
    have hmem : ("--", Op.postDec) ∈ Read.postfixSymbols := by decide
    exact .of_linked rfl ((hx.variable hplace).postfixed hmem (isPlace_strip hplace))
  · obtain ⟨level, hentry, hlevel⟩ := Op.prefix_entry hleading
    obtain ⟨hstrip, hroot, hbare⟩ := operator_node [x] type (Or.inr hleading)
    have hstep : op = .preInc ∨ op = .preDec → x.op = .var := by
      intro hinc
      apply hvar
      rcases hinc with h | h
      all_goals simp [h]
    have hoperand : IsOperand x.tokens x.strip := by
      by_cases hinc : op = .preInc ∨ op = .preDec
      · exact (hx.variable (hstep hinc)).linked.operand
      · have hsign : op ∈ [.not, .negation, .unaryPlus, .bitNot] := by
          simp only [Op.leading, List.mem_cons, List.not_mem_nil, or_false] at hleading hinc ⊢
          tauto
        refine hx.operand (h.operands x ?_)
        rw [operands_sign [x] type hsign]
        exact List.mem_cons_self
    have happly : Read.Prefix.apply ⟨op, level, none⟩ x.strip = some (.ofArgs op [x.strip]) := by
      refine if_neg ?_
      rintro ⟨hinc, hplace⟩
      rw [isPlace_strip (hstep hinc)] at hplace
      cases hplace
    refine .of_operand hroot (fun hb => absurd hb hbare) ?_
    rw [hstrip, spell_signed hleading]
    exact hoperand.prefixed hentry hlevel happly

/-- A literal other than the least integer is read as what is left of it. -/
theorem Readable.literal {l : Literal} (hl : l ≠ .int Int64.minValue) (type : Option Ty) :
    (Node.mk (literalOp l) [] (some (.literal l)) type).Readable := by
  -- A literal is the whole node, whatever its kind.
  have hparts : spell (.mk (literalOp l) [] (some (.literal l)) type) [] = l.tokens ∧
      stripOver (.mk (literalOp l) [] (some (.literal l)) type) [] = l.strip ∧
      rootOps.contains (literalOp l) = false ∧ literalOp l ≠ .postInc := by
    cases l <;> exact ⟨rfl, rfl, rfl, nofun⟩
  obtain ⟨htokens, hstrip, hop, hinc⟩ := hparts
  by_cases hsimple : (Node.mk (literalOp l) [] (some (.literal l)) type).isSimple = true
  · have hatom := Literal.atom hl hsimple
    rw [← htokens, ← hstrip] at hatom
    exact .of_atom hatom
  · have hoperand := Literal.operand hl
    rw [← htokens, ← hstrip] at hoperand
    exact .of_operand hop (fun hbare => (hbare.elim hsimple hinc).elim) hoperand

theorem Readable.root {x : Node} (h : x.Readable) (hop : x.op ∈ rootOps) :
    IsAtom x.tokens x.strip :=
  h.atom (List.contains_iff_mem.2 hop)

/-- The object that a member belongs to is read as an atom. -/
theorem Safe.receiver_atom {object : Node} {args : List Node} {payload : Option Payload}
    (h : (Node.mk op (object :: args) payload type).Safe) (hop : op = .prop ∨ op = .methodCall)
    (hx : object.Readable) : IsAtom object.tokens object.strip := by
  apply hx.root
  rcases h.receiver hop object rfl with hobject | hobject
  · rw [hobject]
    exact List.mem_cons_self
  · rw [hobject]
    exact List.mem_cons_of_mem _ List.mem_cons_self

/-- A cast is read as what is left of it if its operand is. -/
theorem Safe.cast_readable {x : Node} {t : Ty} (h : (Node.mk .cast [x] none (some t)).Safe)
    (ht : t.castKeyword?.isSome = true) (hx : x.Readable) :
    (Node.mk .cast [x] none (some t)).Readable := by
  obtain ⟨keyword, hkeyword⟩ := Option.isSome_iff_exists.1 ht
  have hoperand := hx.operand (h.operands x List.mem_cons_self)
  refine .of_operand rfl (fun _ => rfl) ?_
  have hstrip : ∀ y, stripOver (.mk .cast [x] none (some t)) [y] =
      .mk .cast [y] (some (.cast keyword)) := by
    intro y
    simp [stripOver, Node.op, Node.type, hkeyword]
  have hentry : Read.prefix? (.cast keyword) = some ⟨.cast, 20, some (.cast keyword)⟩ := rfl
  rw [args, List.map_cons, List.map_cons, List.map_nil, List.map_nil, spell_cast hkeyword, hstrip]
  exact hoperand.prefixed hentry (Nat.le_add_right 18 2) rfl

/-- A conditional expression is read as what is left of it if its parts are. -/
theorem Safe.ternary_readable {cond x y : Node} (h : (Node.mk .ternary [cond, x, y] none type).Safe)
    (hcond : cond.Readable) (hx : x.Readable) (hy : y.Readable) :
    (Node.mk .ternary [cond, x, y] none type).Readable := by
  have hoperand := hcond.operand (h.operands cond List.mem_cons_self)
  have hlow := h.low (by simp [Node.op]) y (by simp [args])
  have hexpr := hy.expr
  rw [hlow] at hexpr
  exact .of_expr rfl (by simp [Bare, isSimple, Node.op]) (by simp [Node.op, Op.isLow])
    (hoperand.ternary hx.inner hexpr)

/-- An infix operation is read as what is left of it if its operands are. -/
theorem Safe.binary_readable {x y : Node} (h : (Node.mk op [x, y] none type).Safe)
    (hop : op.isBinary = true) (hx : x.Readable) (hy : y.Readable) :
    (Node.mk op [x, y] none type).Readable := by
  have hoperands : ∀ z ∈ [x, y], z.Bare := by
    have heq : (Node.mk op [x, y] none type).operands = [x, y] := if_pos hop
    rw [← heq]
    exact h.operands
  obtain ⟨hleft, hright⟩ := List.forall_mem_cons.1 hoperands
  obtain ⟨i, hentry, hsame, hlevel, hlow⟩ := Op.infix_entry hop
  obtain ⟨hstrip, hroot, hbare⟩ := operator_node [x, y] type (Or.inl hop)
  -- Only a power takes its left operand before a cast would.
  have htight : IsLinked x.tokens x.strip ∨ i.level < 18 := by
    refine hlevel.imp_left fun hexp => ?_
    have hpower := (h.powers hexp x List.mem_cons_self).2
    refine hx.linked hleft fun hcast => ?_
    rw [hcast] at hpower
    exact absurd hpower (by decide)
  have hternary : i.op ≠ .ternary := by
    rintro heq
    rw [← hsame, heq] at hop
    cases hop
  have hread := (hx.operand hleft).infixed hentry hternary htight
    (hy.operand (hright y List.mem_cons_self))
  refine .of_expr hroot hbare hlow ?_
  rw [hsame] at hread
  rw [hstrip, spell_binary hop]
  exact hread

/-- A safe node is read as what is left of it if its children are. -/
theorem Safe.readable {n : Node} (h : n.Safe) (hargs : ∀ x ∈ n.args, x.Readable) : n.Readable := by
  cases h.spelled with
  | null type => exact .of_atom (.word (by decide) (by decide) rfl)
  | literal l type => exact .literal (fun heq => h.literal (congrArg some heq)) type
  | interpolated type hparts => exact .of_atom (.quoted _)
  | arrayLit elems type => exact .of_atom (.array (Readable.each hargs))
  | tupleLit elems type => exact .of_atom (.tuple (Readable.each hargs))
  | var type hs => exact .of_atom (.var _)
  | name type hs =>
      obtain ⟨hnew, htuple, hword⟩ := Read.word?_name hs
      exact .of_atom (.word hnew htuple hword)
  | new type hs => exact .of_atom (.newObject hs)
  | parens x type => exact .of_atom (.parens (hargs x List.mem_cons_self).inner)
  | prop x type hs =>
      have hx := h.receiver_atom (Or.inl rfl) (hargs x List.mem_cons_self)
      exact .of_linked rfl (hx.prop _)
  | methodCall x args type hs =>
      have hx := h.receiver_atom (Or.inr rfl) (hargs x List.mem_cons_self)
      have hrest := Readable.each fun y hy => hargs y (List.mem_cons_of_mem x hy)
      exact .of_linked rfl (hx.methodCall _ hrest)
  | call callee args type =>
      have hcallee : callee.op ∈ rootOps := by
        rw [h.callee rfl callee rfl]
        decide
      have hx := (hargs callee List.mem_cons_self).root hcallee
      have hrest := Readable.each fun y hy => hargs y (List.mem_cons_of_mem callee hy)
      exact .of_linked rfl (hx.call hrest)
  | index x key type =>
      have hx := (hargs x List.mem_cons_self).variable (h.base rfl x rfl)
      have hkey := hargs key (List.mem_cons_of_mem x List.mem_cons_self)
      exact .of_linked rfl (hx.index hkey.inner)
  | @cast x t ht => exact h.cast_readable ht (hargs x List.mem_cons_self)
  | ternary cond x y type =>
      exact h.ternary_readable (hargs cond (by simp [args])) (hargs x (by simp [args]))
        (hargs y (by simp [args]))
  | unary x type hop => exact h.unary_readable hop (hargs x List.mem_cons_self)
  | binary x y type hop =>
      exact h.binary_readable hop (hargs x List.mem_cons_self)
        (hargs y (List.mem_cons_of_mem x List.mem_cons_self))
  | assign lhs rhs type => exact absurd rfl h.unassigned.1
  | assignModify lhs rhs type hop => exact absurd rfl h.unassigned.2

/-- The tokens of an expression of safe nodes are read as what is left of it. -/
theorem Every.readable : ∀ {n : Node}, n.Every Safe → n.Readable
  | .mk op args payload type, h =>
      h.root.readable fun x hx =>
        have hx : x ∈ args := hx
        Every.readable (h.child hx)

/-- The text of a readable expression that does not bind least is read as what is left of it. -/
theorem Readable.read_text {n : Node} (h : n.Readable) (hlow : n.op.isLow = false)
    {text : List Char} (hlex : Read.Lexes text n.tokens) : Read.read text = some n.strip := by
  have hexpr := h.expr
  rw [hlow] at hexpr
  have htokens : Read.lex text = some n.tokens := by
    have hread := hlex.reads [] .nil
    rw [List.append_nil, Read.Reads, Read.lex, Option.map_some, List.append_nil] at hread
    exact hread
  have htree := hexpr [] (4 * n.tokens.length) 0 (Nat.le_refl _) (Nat.zero_le _) .nil
  rw [List.append_nil] at htree
  rw [Read.read, htokens, Option.bind_eq_bind, Option.bind_some, htree]
  rfl

end Node

/-! ## Texts -/

/-- An operand-safe expression is written, and its text is read back as what is left of the
expression without static types, signs of numbers and literal strings. -/
theorem Node.read_back {n : Node} (h : n.OperandSafe) :
    ∃ text, Print.expr n = .ok text ∧ Read.read text = some n.strip := by
  obtain ⟨hsafe, hlow⟩ := h
  obtain ⟨text, hwritten, hlex⟩ := (hsafe.mono fun _ hm => hm.spelled).printed
  exact ⟨text, hwritten, hsafe.readable.read_text hlow hlex⟩

/-- A node without children is safe if it is spelled and no least integer. -/
theorem Node.Safe.leaf {op : Op} {payload : Option Payload} {type : Option Ty}
    (h : (Node.mk op [] payload type).Spelled) (hop : op ≠ .assign ∧ op ≠ .assignModify)
    (hliteral : (Node.mk op [] payload type).literal? ≠ some (.int Int64.minValue)) :
    (Node.mk op [] payload type).Safe where
  spelled := h
  operands := by
    intro x hx
    unfold Node.operands at hx
    split at hx
    · cases hx
    · split at hx
      all_goals cases hx
  powers := fun _ => nofun
  steps := fun _ => nofun
  low := fun _ => nofun
  unassigned := hop
  receiver := fun _ => nofun
  callee := fun _ => nofun
  base := fun _ => nofun
  literal := hliteral

/-- A cast beside a negative number in parentheses: `(int)$x * (-3)`. -/
theorem Node.read_back_product :
    let n : Node := .binary .mul (.cast (.scalar .int) (.var "x" (.scalar .string)))
      (.parens (.intLit (-3)))
    n.OperandSafe ∧ ∃ text, Print.expr n = .ok text ∧ Read.read text = some n.strip := by
  intro n
  have hvar : (Node.var "x" (.scalar .string)).Safe := .leaf (.var _ (by decide)) (by decide) nofun
  have hnumber : (Node.intLit (-3)).Safe := .leaf (.literal _ _) (by decide) (by decide)
  have hcast : (Node.cast (.scalar .int) (.var "x" (.scalar .string))).Safe :=
    { spelled := .cast _ rfl
      operands := List.forall_mem_singleton.2 (Or.inl rfl)
      powers := nofun
      steps := nofun
      low := fun _ => List.forall_mem_singleton.2 rfl
      unassigned := ⟨nofun, nofun⟩
      receiver := fun h => h.elim nofun nofun
      callee := nofun
      base := nofun
      literal := nofun }
  have hparens : (Node.parens (.intLit (-3))).Safe :=
    { spelled := .parens _ _
      operands := nofun
      powers := nofun
      steps := nofun
      low := fun h => absurd rfl h
      unassigned := ⟨nofun, nofun⟩
      receiver := fun h => h.elim nofun nofun
      callee := nofun
      base := nofun
      literal := nofun }
  have hproduct : n.Safe :=
    { spelled := .binary _ _ _ rfl
      operands := List.forall_mem_cons.2 ⟨Or.inl rfl, List.forall_mem_singleton.2 (Or.inl rfl)⟩
      powers := nofun
      steps := nofun
      low := fun _ => List.forall_mem_cons.2 ⟨rfl, List.forall_mem_singleton.2 rfl⟩
      unassigned := ⟨nofun, nofun⟩
      receiver := fun h => h.elim nofun nofun
      callee := nofun
      base := nofun
      literal := nofun }
  have hsafe : n.OperandSafe :=
    ⟨.two hproduct (.one hcast (.leaf hvar)) (.one hparens (.leaf hnumber)), rfl⟩
  exact ⟨hsafe, Node.read_back hsafe⟩

end TypedPhp
