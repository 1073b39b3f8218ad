import Mathlib.Algebra.GroupWithZero.Nat
import TypedPhp.Proofs.Read.Row

set_option autoImplicit false

/-!
# Tokens stay apart

Whatever tree is written, its text is read as the tokens that its nodes contribute
(`Node.lex_written`). Nothing is asked of the shape of the tree: that a text comes out says which
children a node has put it together from. Only names have to be names, and a compound assignment has
to carry one of its operators. An expression of spelled nodes is written besides
(`Node.Every.printed`).

Signs are where two tokens might grow into one: a sign may come first in the text of an operand
however deep it stands there. So the induction carries that a text is read as its tokens wherever it
stands (`Read.Lexes`), and counts a `++` or `--` for every node that steps a variable
(`Node.count_tokens_le`).
-/

namespace TypedPhp

open Read (Token StringPart Lexes isIdentifier commaText commaTokens)

/-- The sign of an operator that steps a variable. -/
def Op.step? : Op → Option String
  | .preInc | .postInc => some "++"
  | .preDec | .postDec => some "--"
  | _ => none

/-- A node with names that can be read as such: what it carries is an identifier, which is no
type of a cast where it stands alone, and a compound assignment carries one of its operators. -/
structure Node.Worded (n : Node) : Prop where
  isIdentifier : ∀ s, n.ident? = some s → isIdentifier s = true
  uncast : ∀ s, n.ident? = some s → n.op = .name → Read.castWords.lookup (Read.lower s) = none
  compound : ∀ op, n.payload = some (.op op) → n.op = .assignModify → op ∈ Op.compound

/-- A node without a name is no compound assignment either, unless it says so. -/
theorem Node.Worded.of_none {n : Node} (hname : n.ident? = none) (hop : n.op ≠ .assignModify) :
    n.Worded where
  isIdentifier _ hs := nomatch hname.symm.trans hs
  uncast _ hs := nomatch hname.symm.trans hs
  compound _ _ h := absurd h hop

/-- A node whose name is an identifier is no compound assignment either. -/
theorem Node.Worded.of_ident {n : Node} {s : String} (hname : n.ident? = some s)
    (hs : Read.isIdentifier s = true)
    (huncast : n.op = .name → Read.castWords.lookup (Read.lower s) = none)
    (hop : n.op ≠ .assignModify) : n.Worded where
  isIdentifier _ hs' := Option.some.inj (hname.symm.trans hs') ▸ hs
  uncast _ hs' := Option.some.inj (hname.symm.trans hs') ▸ huncast
  compound _ _ h := absurd h hop

namespace Print

/-! ## Texts of children -/

/-- The text of an expression is read as its tokens, if it is written. -/
def Separates (n : Node) : Prop := Yields (expr n) fun x => Lexes x n.tokens

variable {ns : List Node} {n : Node} {x : List Char}

theorem child_separates (h : ∀ m ∈ ns, Separates m) (i : Nat) :
    Yields (child (ns.map expr) i) fun x => Lexes x ((ns.map Node.tokens).getD i []) := by
  intro x hx
  have hget := getElem?_of_child hx
  rw [List.getElem?_map] at hget
  obtain ⟨m, hm, hwritten⟩ := Option.map_eq_some_iff.1 hget
  have htokens : (ns.map Node.tokens).getD i [] = m.tokens := by
    rw [List.getD_eq_getElem?_getD, List.getElem?_map, hm]
    rfl
  rw [htokens]
  exact h m (List.mem_of_getElem? hm) x hwritten

/-- A list of texts is written only if each of them is. -/
theorem written_of_commaList : ∀ {ps : List Written} {x : List Char}, commaList ps = .ok x →
    ∃ xs, ps = xs.map .ok ∧ x = commaText xs
  | [], _, h => ⟨[], rfl, (Except.ok.inj h).symm⟩
  | [p], x, h => ⟨[x], congrArg (· :: []) h, rfl⟩
  | p :: q :: ps, _, h => by
      rw [commaList] at h
      · obtain ⟨head, hhead, h⟩ := ok_of_bind h
        obtain ⟨rest, hrest, h⟩ := ok_of_bind h
        obtain rfl := Except.ok.inj h
        obtain ⟨xs, hxs, rfl⟩ := written_of_commaList hrest
        cases xs with
        | nil => cases hxs
        | cons y xs => exact ⟨head :: y :: xs, by rw [hxs, hhead]; rfl, rfl⟩
      · exact List.cons_ne_nil _ _

theorem forall₂_separates : ∀ {ns : List Node} {xs : List (List Char)}, (∀ m ∈ ns, Separates m) →
    ns.map expr = xs.map .ok → List.Forall₂ Lexes xs (ns.map Node.tokens)
  | [], [], _, _ => .nil
  | [], _ :: _, _, hxs => nomatch hxs
  | _ :: _, [], _, hxs => nomatch hxs
  | m :: ns, y :: xs, h, hxs => by
      obtain ⟨hy, hrest⟩ := List.cons.inj hxs
      exact .cons (h m List.mem_cons_self y hy)
        (forall₂_separates (fun k hk => h k (List.mem_cons_of_mem m hk)) hrest)

theorem commaList_separates (h : ∀ m ∈ ns, Separates m) :
    Yields (commaList (ns.map expr)) fun x =>
      ∃ xs, x = commaText xs ∧ List.Forall₂ Lexes xs (ns.map Node.tokens) := by
  intro x hx
  obtain ⟨xs, hxs, rfl⟩ := written_of_commaList hx
  exact ⟨xs, rfl, forall₂_separates h hxs⟩

theorem needName_yields (n : Node) :
    Yields (needName n) fun x => ∃ s, x = s.toList ∧ n.ident? = some s := by
  intro x hx
  unfold needName at hx
  split at hx
  · rename_i s hs
    exact ⟨s, (Except.ok.inj hx).symm, hs⟩
  · cases hx

theorem needToken_yields (op : Op) :
    Yields (needToken op) fun x => ∃ s, x = s.toList ∧ op.token? = some s := by
  intro x hx
  unfold needToken at hx
  split at hx
  · rename_i s hs
    exact ⟨s, (Except.ok.inj hx).symm, hs⟩
  · cases hx

/-- What stands in an interpolated string that is written is a variable or a text. -/
theorem presents_of_interpolation : ∀ {ns : List Node} {x : List Char},
    (∀ m ∈ ns, m.Worded) → interpolation ns (ns.map expr) = .ok x →
      List.Forall₂ Node.Presents ns (ns.map Node.part)
  | [], _, _, _ => .nil
  | m :: ns, x, hworded, h => by
      have htail : ∀ {head : List Char}, (do
          let rest ← interpolation ns (ns.map expr)
          return head ++ rest) = .ok x → List.Forall₂ Node.Presents ns (ns.map Node.part) := by
        intro head h
        obtain ⟨rest, hrest, -⟩ := ok_of_bind h
        exact presents_of_interpolation (fun k hk => hworded k (List.mem_cons_of_mem m hk)) hrest
      rw [List.map_cons, interpolation] at h
      split at h
      · rename_i hop
        obtain ⟨v, hv, h⟩ := ok_of_bind h
        refine .cons ?_ (htail h)
        obtain ⟨op, args, payload, type⟩ := m
        obtain rfl : op = .var := hop
        rw [expr] at hv
        obtain ⟨s, hs, -⟩ := ok_of_bind hv
        obtain ⟨name, -, hname⟩ := needName_yields _ s hs
        rw [Node.part, if_pos (by rfl), Node.label, hname]
        exact .var rfl hname ((hworded _ List.mem_cons_self).isIdentifier _ hname)
      · rename_i hop
        split at h
        · rename_i bytes hbytes
          refine .cons ?_ (htail h)
          rw [Node.part, if_neg hop, hbytes]
          exact .text hop hbytes
        · cases h

theorem interpolation_separates (hworded : ∀ m ∈ ns, m.Worded) :
    Yields (interpolation ns (ns.map expr)) fun x =>
      x = (ns.map Node.part).flatMap Read.StringPart.spelling ∧
        ∀ name, .var name ∈ ns.map Node.part → isIdentifier name = true := by
  intro x hx
  have hpresents := presents_of_interpolation hworded hx
  refine ⟨Except.ok.inj (hx.symm.trans (interpolation_spelling hpresents)), fun name hname => ?_⟩
  have hnames : ∀ part ∈ ns.map Node.part, ∀ name, part = .var name → isIdentifier name = true := by
    refine forall₂_right (hpresents.imp fun m part hpart => ?_)
    rintro name rfl
    exact hpart.isIdentifier
  exact hnames _ hname name rfl

/-! ## Nodes -/

/-- An infix operator stands between blanks. -/
theorem infix_separates {op : Op} {left right : Written} {ts us : List Token}
    (hop : op.isBinary = true) (hleft : Yields left (Lexes · ts))
    (hright : Yields right (Lexes · us)) :
    Yields (do
      let x ← left
      let token ← needToken op
      let y ← right
      return x ++ ' ' :: (token ++ ' ' :: y)) (Lexes · (ts ++ op.infixToken :: us)) := by
  refine hleft.bind fun x hx => (needToken_yields op).bind fun z hz =>
    hright.bind fun y hy => .pure ?_
  obtain ⟨s, rfl, hs⟩ := hz
  obtain ⟨s', htoken, hkind⟩ := Op.infixToken_cases hop
  obtain rfl := Option.some.inj (htoken.symm.trans hs)
  rcases hkind with ⟨heq, hword⟩ | ⟨heq, hsymbol, hopen⟩
  · rw [heq]
    exact hx.infixWord hword hy
  · rw [heq]
    exact hx.infixSymbol hsymbol hopen hy

/-- The name of a node is what it is labelled with. -/
theorem needName_label (n : Node) :
    Yields (needName n) fun x => x = n.label.toList ∧ n.ident? = some n.label := by
  intro x hx
  obtain ⟨s, rfl, hs⟩ := needName_yields n x hx
  rw [Node.label, hs]
  exact ⟨rfl, rfl⟩

/-! What operators write: single children, all of them in a list, all but the first in a list, the
parts of a string, and a name. -/

section Forms

variable (hn : n.Worded) (hargs : ∀ m ∈ n.args, m.Worded ∧ Separates m)

include hargs

theorem arguments_separate : Yields (commaList ((n.args.map expr).drop 1)) fun x =>
    ∃ xs, x = commaText xs ∧ List.Forall₂ Lexes xs ((n.args.map Node.tokens).drop 1) := by
  rw [← List.map_drop, ← List.map_drop]
  exact commaList_separates fun m hm => (hargs m (List.mem_of_mem_drop hm)).2

/-- Literals and lists are read as their tokens. -/
theorem literal_separates (hop : n.op ∈ [.null, .boolLit, .intLit, .floatLit, .stringLit,
    .interpolated, .arrayLit, .tupleLit]) :
    Yields (assemble n (n.args.map expr)) fun x => Lexes x (n.spell (n.args.map Node.tokens)) := by
  have hlist := commaList_separates fun m hm => (hargs m hm).2
  obtain ⟨op, args, payload, type⟩ := n
  replace hop : op ∈ _ := hop
  cases op with
  | null => exact .pure (.word (s := "null") (by decide) (by decide))
  | boolLit | intLit | floatLit | stringLit =>
      simp only [assemble, Node.op]
      split
      · rename_i l hl
        refine .pure ?_
        simp only [Node.spell, Node.op, hl]
        exact l.lexes
      · exact .throw
  | interpolated =>
      have hinside := interpolation_separates fun m hm => (hargs m hm).1
      refine hinside.bind fun x hx => .pure ?_
      obtain ⟨rfl, hnames⟩ := hx
      exact .quoted hnames
  | arrayLit =>
      refine hlist.bind fun x hx => .pure ?_
      obtain ⟨xs, rfl, hxs⟩ := hx
      exact .array hxs
  | tupleLit =>
      refine hlist.bind fun x hx => .pure ?_
      obtain ⟨xs, rfl, hxs⟩ := hx
      have hword : Lexes "tuple".toList [.word "tuple"] := .word (by decide) (by decide)
      exact hword.call hxs
  | _ => exact absurd hop (by decide)

include hn

/-- What has a name is read as its tokens. -/
theorem named_separates (hop : n.op ∈ [.var, .name, .new, .prop, .methodCall]) :
    Yields (assemble n (n.args.map expr)) fun x => Lexes x (n.spell (n.args.map Node.tokens)) := by
  have hname := needName_label n
  have hobject := child_separates (fun m hm => (hargs m hm).2) 0
  have hrest := arguments_separate hargs
  obtain ⟨op, args, payload, type⟩ := n
  replace hop : op ∈ _ := hop
  cases op with
  | var =>
      refine hname.bind fun x hx => .pure ?_
      obtain ⟨rfl, hs⟩ := hx
      exact .var (hn.isIdentifier _ hs)
  | name =>
      intro x hx
      obtain ⟨rfl, hs⟩ := hname x hx
      exact .word (hn.isIdentifier _ hs) (hn.uncast _ hs rfl)
  | new =>
      refine hname.bind fun x hx => .pure ?_
      obtain ⟨rfl, hs⟩ := hx
      exact .newObject (hn.isIdentifier _ hs)
  | prop =>
      refine hobject.bind fun x hx => hname.bind fun y hy => .pure ?_
      obtain ⟨rfl, hs⟩ := hy
      exact hx.prop (hn.isIdentifier _ hs)
  | methodCall =>
      refine hobject.bind fun x hx => hname.bind fun y hy => hrest.bind fun z hz => .pure ?_
      obtain ⟨rfl, hs⟩ := hy
      obtain ⟨xs, rfl, hxs⟩ := hz
      exact (hx.prop (hn.isIdentifier _ hs)).call hxs
  | _ => exact absurd hop (by decide)

/-- An operator that stands at one place, whichever it is, is read as its tokens. -/
theorem operator_separates (hop : n.op ∈ [.cast, .assign, .assignModify, .postInc, .postDec, .not,
    .negation, .unaryPlus, .bitNot, .preInc, .preDec]) :
    Yields (assemble n (n.args.map expr)) fun x => Lexes x (n.spell (n.args.map Node.tokens)) := by
  have hchild := child_separates fun m hm => (hargs m hm).2
  obtain ⟨op, args, payload, type⟩ := n
  replace hop : op ∈ _ := hop
  cases op with
  | cast =>
      simp only [assemble, Node.op]
      split
      · exact .throw
      · rename_i keyword hkeyword
        obtain ⟨t, -, ht⟩ := Option.bind_eq_some_iff.1 hkeyword
        obtain ⟨hident, hlookup⟩ := Ty.castKeyword_cases ht
        refine (hchild 0).bind fun x hx => .pure ?_
        simp only [Node.spell, Node.op, hkeyword]
        exact .cast hident hlookup hx
  | assign =>
      refine (hchild 0).bind fun x hx => (hchild 1).bind fun y hy => .pure ?_
      rw [List.append_assoc]
      exact hx.infixSymbol (s := "=") (by decide) (by decide) hy
  | assignModify =>
      simp only [assemble, Node.op]
      split
      · rename_i op hop
        obtain ⟨s, htoken, hs, hopen⟩ := Op.compound_symbol (hn.compound op hop rfl)
        refine (hchild 0).bind fun x hx => (needToken_yields op).bind fun z hz =>
          (hchild 1).bind fun y hy => .pure ?_
        obtain ⟨s', rfl, hs'⟩ := hz
        obtain rfl := Option.some.inj (htoken.symm.trans hs')
        have htext : s.toList ++ "= ".toList ++ y = (s ++ "=").toList ++ ' ' :: y := by
          simp [String.toList_append]
        simp only [Node.spell, Node.op, hop, htoken, htext]
        exact hx.infixSymbol hs hopen hy
      · exact .throw
  | postInc | postDec =>
      refine (hchild 0).bind fun x hx => (needToken_yields _).bind fun y hy => .pure ?_
      obtain ⟨s, rfl, hs⟩ := hy
      obtain rfl := Option.some.inj hs
      exact hx.postfixed (by decide)
  | not | negation | unaryPlus | bitNot | preInc | preDec =>
      refine (needToken_yields _).bind fun y hy => (hchild 0).bind fun x hx => .pure ?_
      obtain ⟨s, rfl, hs⟩ := hy
      obtain rfl := Option.some.inj hs
      -- A blank is put in where the operand begins with the same sign, however deep that stands.
      exact hx.signed (by decide)
  | _ => exact absurd hop (by decide)

/-- A node with names is read as its tokens if its children are. -/
theorem assemble_separates :
    Yields (assemble n (n.args.map expr)) fun x => Lexes x (n.spell (n.args.map Node.tokens)) := by
  have hchild := child_separates fun m hm => (hargs m hm).2
  have hrest := arguments_separate hargs
  obtain ⟨op, args, payload, type⟩ := n
  cases op with
  | null | boolLit | intLit | floatLit | stringLit | interpolated | arrayLit | tupleLit =>
      exact literal_separates hargs (by simp [Node.op])
  | var | name | new | prop | methodCall => exact named_separates hn hargs (by simp [Node.op])
  | cast | assign | assignModify | postInc | postDec | not | negation | unaryPlus | bitNot | preInc
  | preDec => exact operator_separates hn hargs (by simp [Node.op])
  | parens => exact (hchild 0).bind fun x hx => .pure hx.parens
  | call =>
      refine (hchild 0).bind fun x hx => hrest.bind fun z hz => .pure ?_
      obtain ⟨xs, rfl, hxs⟩ := hz
      exact hx.call hxs
  | index => exact (hchild 0).bind fun x hx => (hchild 1).bind fun y hy => .pure (hx.index hy)
  | ternary =>
      exact (hchild 0).bind fun x hx => (hchild 1).bind fun y hy => (hchild 2).bind fun z hz =>
        .pure (hx.ternary hy hz)
  | _ =>
      simp only [assemble, Node.op]
      split
      · rename_i hbinary
        exact infix_separates hbinary (hchild 0) (hchild 1)
      · exact .throw

end Forms

/-- An expression whose nodes have names is read as its tokens, if it is written. -/
theorem expr_separates {n : Node} (hn : n.Every Node.Worded) : Separates n := by
  induction n using Node.inductionOn with
  | node op args payload type ih =>
      intro x hx
      rw [expr, exprEach_eq_map] at hx
      rw [Node.tokens, Node.tokensEach_eq_map]
      refine assemble_separates hn.root (fun m hm => ?_) x hx
      have hm : m ∈ args := hm
      have hchild := hn.child hm
      exact ⟨hchild m m.self_mem_subterms, ih m hm hchild⟩

end Print

/-! ## Spelled nodes -/

namespace Node

/-- A spelled node has names that can be read as such. -/
theorem Spelled.worded {n : Node} (h : n.Spelled) : n.Worded := by
  cases h with
  | literal l type => cases l <;> exact .of_none rfl nofun
  | var type hs => exact .of_ident rfl hs nofun nofun
  | name type hs =>
      obtain ⟨hident, hcast⟩ := Read.isName_cases hs
      exact .of_ident rfl hident (fun _ => hcast) nofun
  | new type hs => exact .of_ident rfl (Read.isName_cases hs).1 nofun nofun
  | prop x type hs => exact .of_ident rfl hs nofun nofun
  | methodCall x args type hs => exact .of_ident rfl hs nofun nofun
  | @unary op x type hop =>
      refine .of_none rfl ?_
      rintro (rfl : op = .assignModify)
      exact absurd hop (by decide)
  | @binary op x y type hop =>
      refine .of_none rfl ?_
      rintro (rfl : op = .assignModify)
      cases hop
  | assignModify lhs rhs type hop =>
      exact ⟨nofun, nofun, fun op heq _ => by cases heq; exact hop⟩
  | _ => exact .of_none rfl nofun

/-- A spelled node is complete. -/
theorem Spelled.complete {n : Node} (h : n.Spelled) : n.Complete := by
  cases h with
  | literal l type => exact .literal l type
  | interpolated type hparts => exact .interpolated type hparts
  | cast x hkeyword => exact .cast x hkeyword
  | unary x type hop => exact .unary x type hop
  | binary x y type hop => exact .binary x y type hop
  | assign lhs rhs type => exact .assign lhs rhs type
  | assignModify lhs rhs type hop => exact .assignModify lhs rhs type (Op.isBinary_of_compound hop)
  | _ => constructor

/-- The expression is written, and its text is read as its tokens. -/
def Printed (n : Node) : Prop := ∃ x, Print.expr n = .ok x ∧ Lexes x n.tokens

/-- An expression of spelled nodes is written, and its text is read as its tokens. -/
theorem Every.printed {n : Node} (h : n.Every Spelled) : n.Printed := by
  obtain ⟨text, htext⟩ := (h.mono fun _ => Spelled.complete).succeeds
  exact ⟨text, htext, Print.expr_separates (h.mono fun _ => Spelled.worded) text htext⟩

/-! ## Steps -/

variable {s : String}

/-- How often a symbol stands among some tokens. -/
def signs (s : String) (ts : List Token) : Nat := ts.count (.symbol s)

theorem signs_nil : signs s [] = 0 := rfl

theorem signs_append (ts us : List Token) : signs s (ts ++ us) = signs s ts + signs s us :=
  List.count_append

theorem signs_cons (t : Token) (ts : List Token) :
    signs s (t :: ts) = signs s ts + if t = .symbol s then 1 else 0 := by
  simp [signs, List.count_cons]

theorem signs_commaTokens (hs : s ≠ ",") :
    ∀ tss : List (List Token), signs s (commaTokens tss) = (tss.map (signs s)).sum
  | [] => rfl
  | [ts] => by simp [commaTokens]
  | ts :: us :: tss => by
      have hrest := signs_commaTokens hs (us :: tss)
      simp [commaTokens, signs_append, signs_cons, hrest, Ne.symm hs]

/-- The first three children of a node come from places of their own. -/
theorem signs_children_le (s : String) (parts : List (List Token)) :
    signs s (parts.getD 0 []) + signs s (parts.getD 1 []) + signs s (parts.getD 2 []) ≤
      (parts.map (signs s)).sum := by
  rcases parts with _ | ⟨a, _ | ⟨b, _ | ⟨c, parts⟩⟩⟩
  all_goals
    simp [signs_nil]
  all_goals omega

theorem signs_callee_le (s : String) (parts : List (List Token)) :
    signs s (parts.getD 0 []) + ((parts.drop 1).map (signs s)).sum = (parts.map (signs s)).sum := by
  cases parts with
  | nil => rfl
  | cons a parts => rfl

theorem signs_literal (hs : s ∈ ["++", "--"]) (l : Literal) : signs s l.tokens = 0 := by
  have hminus : s ≠ "-" := by
    rintro rfl
    revert hs
    decide
  cases l with
  | bool v => cases v <;> rfl
  | int v =>
      rw [Literal.tokens, signs_append, signs_cons]
      split <;> simp [signs_nil, signs_cons, Ne.symm hminus]
  | float x =>
      rw [Literal.tokens]
      split
      · rfl
      · rw [signs_append, signs_cons]
        split <;> split <;> simp [signs_nil, signs_cons, Ne.symm hminus]
  | string bytes => rfl

/-- A node contributes a step only if it is one. -/
theorem signs_spell_le (hs : s ∈ ["++", "--"]) (n : Node) (parts : List (List Token)) :
    signs s (n.spell parts) ≤
      (if n.op.step? = some s then 1 else 0) + (parts.map (signs s)).sum := by
  have hchildren := signs_children_le s parts
  have hcallee := signs_callee_le s parts
  have hcommas := signs_commaTokens (s := s) (by rintro rfl; revert hs; decide)
  have hliteral := signs_literal hs
  have hcompound : ∀ op : Op, Token.symbol (op.token?.getD "" ++ "=") ≠ .symbol s := by
    intro op heq
    obtain rfl := Token.symbol.inj heq
    revert hs
    cases op <;> decide
  obtain ⟨op, args, payload, type⟩ := n
  simp only [List.mem_cons, List.not_mem_nil, or_false] at hs
  cases op with
  | boolLit | intLit | floatLit | stringLit =>
      simp only [spell, Node.op]
      cases (mk _ args payload type).literal? with
      | none => exact Nat.zero_le _
      | some l => simp [hliteral]
  | assignModify =>
      simp only [spell, Node.op]
      split
      · simp only [signs_append, signs_cons, hcompound, if_false]
        omega
      · exact Nat.zero_le _
  | _ =>
      rcases hs with rfl | rfl
      all_goals
        simp only [spell, Node.op, Op.infixToken, Op.token?, Op.step?, signs_append, signs_cons,
          signs_nil, hcommas, Option.getD_some, Option.getD_none, reduceCtorEq, if_false,
          Token.symbol.injEq, Option.some.injEq, String.reduceEq, if_true]
        omega

/-- A tree contributes at most one step for every node that is one. -/
theorem count_tokens_le (hs : s ∈ ["++", "--"]) (n : Node) :
    n.tokens.count (.symbol s) ≤ n.subterms.countP fun m => m.op.step? = some s := by
  induction n using inductionOn with
  | node op args payload type ih =>
      have hargs : ((args.map tokens).map (signs s)).sum ≤
          (subtermsList args).countP fun m => m.op.step? = some s := by
        induction args with
        | nil => exact Nat.zero_le _
        | cons x args ihargs =>
            have hx : signs s x.tokens ≤ x.subterms.countP fun m => m.op.step? = some s :=
              ih x List.mem_cons_self
            have hrest := ihargs fun y hy => ih y (List.mem_cons_of_mem x hy)
            simp only [List.map_cons, List.sum_cons, subtermsList, List.countP_append]
            omega
      have hspell := signs_spell_le hs (.mk op args payload type) (args.map tokens)
      rw [tokens, tokensEach_eq_map, subterms, List.countP_cons]
      simp only [decide_eq_true_eq]
      exact hspell.trans (by omega)

end Node

/-- The text of an expression is read as exactly the tokens of its nodes, whatever its tree, if
it is written and its names are names. A `++` or `--` among them comes from a node that steps a
variable. -/
theorem Node.lex_written {n : Node} {text : List Char} (hn : n.Every Worded)
    (htext : Print.expr n = .ok text) :
    Read.lex text = some n.tokens ∧
      ∀ s ∈ ["++", "--"],
        n.tokens.count (.symbol s) ≤ n.subterms.countP fun m => m.op.step? = some s := by
  have hreads := (Print.expr_separates hn text htext).reads [] .nil
  have hall : Read.lex (text ++ []) = (Read.lex []).map (n.tokens ++ ·) := hreads
  refine ⟨?_, fun s hs => count_tokens_le hs n⟩
  simpa [Read.lex] using hall

/-- Signs before signs: a minus before a difference that begins with a negative number, and a minus
before a step down. -/
theorem Node.lex_written_signs :
    let n : Node := .unary .negation (.binary .sub (.intLit (-1))
      (.unary .negation (.unary .preDec (.var "x" (.scalar .int)))))
    (n.Every Worded ∧ Print.expr n = .ok "- -1 - - --$x".toList) ∧
      Read.lex "- -1 - - --$x".toList = some [.symbol "-", .symbol "-", .number ['1'], .symbol "-",
        .symbol "-", .symbol "--", .var "x"] := by
  intro n
  have hvar : (Node.var "x" (.scalar .int)).Worded :=
    .of_ident rfl (by decide) (fun hop => absurd hop (by decide)) (by decide)
  have hother : ∀ (op : Op) (args : List Node), op ≠ .assignModify →
      (Node.mk op args none none).Worded := fun _ _ hop => .of_none rfl hop
  have hstep : (Node.unary .negation (.unary .preDec (.var "x" (.scalar .int)))).Every Worded :=
    .one (hother _ _ (by decide)) (.one (hother _ _ (by decide)) (.leaf hvar))
  have hminus : (Node.intLit (-1)).Every Worded := .leaf (.of_none rfl (by decide))
  have hn : n.Every Worded :=
    .one (hother _ _ (by decide)) (.two (hother _ _ (by decide)) hminus hstep)
  have htext : Print.expr n = .ok "- -1 - - --$x".toList := by rfl
  exact ⟨⟨hn, htext⟩, (lex_written hn htext).1.trans (by decide +kernel)⟩

end TypedPhp
