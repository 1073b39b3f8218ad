import Mathlib.Data.List.Forall2
import TypedPhp.Proofs.Read.Printed
import TypedPhp.Proofs.Read.Term

set_option autoImplicit false

/-!
# Tokens that group as a tree

How far the reader goes depends on the token that follows. Four predicates say that tokens are read
as a tree: as an atom, whatever follows; as an atom with links, if no link follows; as an operand,
if besides no operator follows that binds tighter than the ones before operands; and as an
expression, if a closing token follows or none. Each form of expression takes its parts from one of
them to another.
-/

namespace TypedPhp.Read

/-! ## What follows -/

/-- The symbols that go on with an atom. -/
def linkSymbols : List String := ["->", "[", "(", "++", "--"]

/-- Tokens that do not go on with an atom. -/
def Unlinked (rest : List Token) : Prop := ∀ s, rest.head? = some (.symbol s) → s ∉ linkSymbols

/-- Tokens that do not begin with an infix operator of a level or above. -/
def Stops (level : Nat) (rest : List Token) : Prop :=
  ∀ t ∈ rest.head?, ∀ i, infix? t = some i → i.level < level

/-- The tokens that may follow an expression in brackets. -/
def closers : List Token := [.symbol ")", .symbol "]", .symbol ",", .symbol ":"]

/-- Nothing, or a token that ends an expression. -/
def Closing (rest : List Token) : Prop := ∀ t ∈ rest.head?, t ∈ closers

variable {us vs ws rest : List Token} {x y z : Term} {t : Token} {fuel level : Nat}

theorem Closing.nil : Closing [] := by
  intro t ht
  cases ht

theorem Closing.cons (h : t ∈ closers) (rest : List Token) : Closing (t :: rest) := by
  intro u hu
  obtain rfl := Option.some.inj hu
  exact h

theorem Closing.unlinked (h : Closing rest) : Unlinked rest := by
  intro s hs
  have hall : ∀ t ∈ closers, ∀ s ∈ linkSymbols, t ≠ .symbol s := by decide
  exact fun hmem => hall _ (h _ hs) s hmem rfl

theorem Closing.stops (h : Closing rest) (level : Nat) : Stops level rest := by
  intro t ht i hi
  have hall : ∀ t ∈ closers, infix? t = none := by decide
  rw [hall t (h t ht)] at hi
  cases hi

theorem Stops.mono {level' : Nat} (h : Stops level rest) (hle : level ≤ level') :
    Stops level' rest :=
  fun t ht i hi => Nat.lt_of_lt_of_le (h t ht i hi) hle

/-- The operators end where none of their level follows. -/
theorem infixes_stop {barred : Option Nat} (hfuel : 0 < fuel) (h : Stops level rest) :
    infixes fuel level barred x rest = some (x, rest) := by
  obtain ⟨fuel, rfl⟩ := Nat.exists_eq_add_of_lt hfuel
  cases rest with
  | nil => rfl
  | cons t rest =>
      rw [Nat.zero_add, infixes]
      cases hi : infix? t with
      | none => rfl
      | some i => exact if_pos (h t rfl i hi)

/-- The links end where none follows. -/
theorem links_stop (hfuel : 0 < fuel) (h : Unlinked rest) : links fuel x rest = some (x, rest) := by
  obtain ⟨fuel, rfl⟩ := Nat.exists_eq_add_of_lt hfuel
  rw [Nat.zero_add]
  cases rest with
  | nil => rfl
  | cons t rest =>
      cases t with
      | symbol s =>
          have hs := h s rfl
          simp only [linkSymbols, List.mem_cons, List.not_mem_nil, or_false, not_or] at hs
          obtain ⟨harrow, hbracket, hparen, hinc, hdec⟩ := hs
          have hnone : postfixSymbols.lookup s = none :=
            List.lookup_eq_none_iff.2 (by simp [postfixSymbols, hinc, hdec])
          unfold links
          rw [if_neg harrow, if_neg hbracket, if_neg hparen, hnone]
      | _ => rfl

/-! ## Kinds of expressions -/

/-- Tokens are read as an atom, whatever follows. -/
def IsAtom (us : List Token) (x : Term) : Prop :=
  ∃ t ts, us = t :: ts ∧ prefix? t = none ∧
    ∀ rest fuel, 4 * us.length ≤ fuel + 3 → primary fuel t (ts ++ rest) = some (x, rest)

/-- Tokens are read as an atom with what is linked to it, if no link follows. -/
def IsLinked (us : List Token) (x : Term) : Prop :=
  ∀ rest fuel, 4 * us.length ≤ fuel + 2 → Unlinked rest → operand fuel (us ++ rest) = some (x, rest)

/-- Tokens are read as an operand, if no link and no operator of the level of negations follows. -/
def IsOperand (us : List Token) (x : Term) : Prop :=
  ∀ rest fuel, 4 * us.length ≤ fuel + 2 → Unlinked rest → Stops 18 rest →
    operand fuel (us ++ rest) = some (x, rest)

/-- Tokens are read as an expression of a level, or of one below, if what follows ends it. -/
def IsExpr (max : Nat) (us : List Token) (x : Term) : Prop :=
  ∀ rest fuel level, 4 * us.length ≤ fuel → level ≤ max → Closing rest →
    expr fuel level (us ++ rest) = some (x, rest)

theorem expr_of_operand (hfuel : 0 < fuel) (h : operand fuel us = some (x, rest))
    (hrest : Stops level rest) : expr (fuel + 1) level us = some (x, rest) := by
  rw [expr, h]
  exact infixes_stop hfuel hrest

/-- An atom is one without links. -/
theorem IsAtom.linked (h : IsAtom us x) : IsLinked us x := by
  obtain ⟨t, ts, rfl, hleading, hread⟩ := h
  intro rest fuel hfuel hrest
  rw [List.length_cons] at hfuel
  obtain ⟨fuel, rfl⟩ : ∃ k, fuel = k + 1 := ⟨fuel - 1, by omega⟩
  rw [List.cons_append, operand, hleading]
  dsimp only
  rw [hread rest fuel (by rw [List.length_cons]; omega)]
  exact links_stop (by omega) hrest

theorem IsLinked.operand (h : IsLinked us x) : IsOperand us x :=
  fun rest fuel hfuel hrest _ => h rest fuel hfuel hrest

theorem IsOperand.ne_nil (h : IsOperand us x) : us ≠ [] := by
  rintro rfl
  have hnone := h [] 1 (by decide) Closing.nil.unlinked (Closing.nil.stops 18)
  cases hnone

/-- An operand is an expression. -/
theorem IsOperand.expr (h : IsOperand us x) (max : Nat) : IsExpr max us x := by
  intro rest fuel level hfuel _ hrest
  have hpos := List.length_pos_of_ne_nil h.ne_nil
  obtain ⟨fuel, rfl⟩ : ∃ k, fuel = k + 1 := ⟨fuel - 1, by omega⟩
  exact expr_of_operand (by omega) (h rest fuel (by omega) hrest.unlinked (hrest.stops 18))
    (hrest.stops level)

theorem IsExpr.mono {max max' : Nat} (h : IsExpr max us x) (hle : max' ≤ max) : IsExpr max' us x :=
  fun rest fuel level hfuel hlevel hrest => h rest fuel level hfuel (hlevel.trans hle) hrest

/-- An expression begins with a token that ends none. -/
theorem IsExpr.head {max : Nat} (h : IsExpr max us x) : ∃ t ts, us = t :: ts ∧ t ∉ closers := by
  cases us with
  | nil =>
      have hnone := h [] 2 0 (by decide) (Nat.zero_le _) .nil
      cases hnone
  | cons t ts =>
      refine ⟨t, ts, rfl, fun ht => ?_⟩
      have hread := h [] (4 * (ts.length + 1)) 0 (by rw [List.length_cons]) (Nat.zero_le _) .nil
      have hfuel : 4 * (ts.length + 1) = 4 * ts.length + 1 + 1 + 1 + 1 := by omega
      rw [hfuel] at hread
      simp only [closers, List.mem_cons, List.not_mem_nil, or_false] at ht
      rcases ht with rfl | rfl | rfl | rfl
      all_goals cases hread

/-- An expression begins with no closing bracket. -/
theorem IsExpr.expect_none {max : Nat} {close : String} (h : IsExpr max us x)
    (hclose : .symbol close ∈ closers) (rest : List Token) : expect close (us ++ rest) = none := by
  obtain ⟨t, ts, rfl, ht⟩ := h.head
  cases t with
  | symbol s =>
      rw [List.cons_append, expect]
      refine if_neg ?_
      rintro rfl
      exact ht hclose
  | _ => rfl

/-! ## Lists -/

variable {uss : List (List Token)} {xs : List Term} {close : String}

theorem expect_symbol (s : String) (rest : List Token) : expect s (.symbol s :: rest) = some rest :=
  if_pos rfl

/-- Expressions separated by commas are read up to the closing bracket. -/
theorem list_read (hclose : close = ")" ∨ close = "]") (h : List.Forall₂ (IsExpr 0) uss xs)
    (rest : List Token) : ∀ fuel, 4 * (commaTokens uss).length + 4 ≤ fuel →
    list fuel close (commaTokens uss ++ .symbol close :: rest) = some (xs, rest) := by
  have hmem : Token.symbol close ∈ closers := by
    rcases hclose with rfl | rfl
    all_goals decide
  have hcomma : expect "," (.symbol close :: rest) = none := by
    rcases hclose with rfl | rfl
    all_goals rfl
  -- Each element takes one unit of fuel, and its own tokens leave enough of the rest to read it.
  induction h with
  | nil =>
      intro fuel hfuel
      obtain ⟨fuel, rfl⟩ : ∃ k, fuel = k + 1 := ⟨fuel - 1, by omega⟩
      rw [commaTokens, List.nil_append, list, expect_symbol]
  | @cons us x uss xs hx hxs ih =>
      intro fuel hfuel
      obtain ⟨fuel, rfl⟩ : ∃ k, fuel = k + 1 := ⟨fuel - 1, by omega⟩
      cases hxs with
      | nil =>
          rw [commaTokens] at hfuel ⊢
          rw [list, hx.expect_none hmem]
          dsimp only
          rw [hx _ fuel 0 (by omega) (Nat.le_refl 0) (.cons hmem rest)]
          simp only [Option.bind_eq_bind, Option.bind_some, hcomma, expect_symbol]
      | @cons vs y vss ys hy hys =>
          have htokens : commaTokens (us :: vs :: vss) ++ .symbol close :: rest =
              us ++ .symbol "," :: (commaTokens (vs :: vss) ++ .symbol close :: rest) := by
            simp [commaTokens]
          have hlength : (commaTokens (us :: vs :: vss)).length =
              us.length + 1 + (commaTokens (vs :: vss)).length := by
            simp [commaTokens]
            omega
          rw [hlength] at hfuel
          have hcloser : Token.symbol "," ∈ closers := by decide
          rw [htokens, list, hx.expect_none hmem]
          dsimp only
          rw [hx _ fuel 0 (by omega) (Nat.le_refl 0) (.cons hcloser _)]
          simp only [Option.bind_eq_bind, Option.bind_some, expect_symbol, ih fuel (by omega)]

/-! ## Atoms -/

namespace IsAtom

theorem single (hleading : prefix? t = none)
    (h : ∀ fuel rest, primary (fuel + 1) t rest = some (x, rest)) : IsAtom [t] x := by
  refine ⟨t, [], rfl, hleading, fun rest fuel hfuel => ?_⟩
  obtain ⟨fuel, rfl⟩ : ∃ k, fuel = k + 1 := ⟨fuel - 1, by simp at hfuel; omega⟩
  exact h fuel rest

theorem var (s : String) : IsAtom [.var s] (.atom .var (.name s)) :=
  single rfl fun _ _ => rfl

theorem number {text : List Char} (h : number? text = some x) : IsAtom [.number text] x := by
  refine single rfl fun fuel rest => ?_
  rw [primary, h]
  rfl

theorem quoted (parts : List StringPart) :
    IsAtom [.quoted parts] (.atom .interpolated (.string parts)) :=
  single rfl fun _ _ => rfl

theorem word {s : String} (hnew : lower s ≠ "new") (htuple : lower s ≠ "tuple")
    (h : word? s = some x) : IsAtom [.word s] x := by
  refine single rfl fun fuel rest => ?_
  rw [primary, if_neg hnew, if_neg htuple, h]
  rfl

/-- A new object. -/
theorem newObject {c : String} (hc : isName c = true) :
    IsAtom [.word "new", .word c, .symbol "(", .symbol ")"] (.atom .new (.name c)) := by
  refine ⟨_, _, rfl, rfl, fun rest fuel hfuel => ?_⟩
  obtain ⟨fuel, rfl⟩ : ∃ k, fuel = k + 1 := ⟨fuel - 1, by simp at hfuel; omega⟩
  have hnew : newObject? (.word c :: .symbol "(" :: .symbol ")" :: rest) =
      some (.atom .new (.name c), rest) := by
    simp only [newObject?, expect_symbol, Option.bind_eq_bind, Option.bind_some, hc, if_true]
  exact hnew

/-- An expression in parentheses. -/
theorem parens (h : IsExpr 0 us x) :
    IsAtom (.symbol "(" :: (us ++ [.symbol ")"])) (.ofArgs .parens [x]) := by
  refine ⟨_, _, rfl, rfl, fun rest fuel hfuel => ?_⟩
  simp only [List.length_cons, List.length_append, List.length_nil] at hfuel
  obtain ⟨fuel, rfl⟩ : ∃ k, fuel = k + 1 := ⟨fuel - 1, by omega⟩
  have hcloser : Token.symbol ")" ∈ closers := by decide
  rw [List.append_assoc, List.singleton_append, primary, if_pos rfl,
    h _ fuel 0 (by omega) (Nat.le_refl 0) (.cons hcloser rest)]
  rfl

/-- A list in brackets. -/
theorem array (h : List.Forall₂ (IsExpr 0) uss xs) :
    IsAtom (.symbol "[" :: (commaTokens uss ++ [.symbol "]"])) (.ofArgs .arrayLit xs) := by
  refine ⟨_, _, rfl, rfl, fun rest fuel hfuel => ?_⟩
  simp only [List.length_cons, List.length_append, List.length_nil] at hfuel
  obtain ⟨fuel, rfl⟩ : ∃ k, fuel = k + 1 := ⟨fuel - 1, by omega⟩
  rw [List.append_assoc, List.singleton_append, primary, if_neg (by decide), if_pos rfl,
    list_read (Or.inr rfl) h rest fuel (by omega)]
  rfl

/-- A tuple. -/
theorem tuple (h : List.Forall₂ (IsExpr 0) uss xs) :
    IsAtom (.word "tuple" :: .symbol "(" :: (commaTokens uss ++ [.symbol ")"]))
      (.ofArgs .tupleLit xs) := by
  refine ⟨_, _, rfl, rfl, fun rest fuel hfuel => ?_⟩
  simp only [List.length_cons, List.length_append, List.length_nil] at hfuel
  obtain ⟨fuel, rfl⟩ : ∃ k, fuel = k + 1 := ⟨fuel - 1, by omega⟩
  have hlist := list_read (Or.inl rfl) h rest fuel (by omega)
  rw [List.cons_append, List.append_assoc, List.singleton_append, primary, if_neg (by decide),
    if_pos (by decide), expect_symbol]
  simp only [Option.bind_eq_bind, Option.bind_some, hlist]

end IsAtom

/-! ## Links -/

namespace IsAtom

/-- An atom and what is linked to it. -/
theorem link (h : IsAtom us x) (hlink : ∀ rest fuel, 4 * vs.length + 1 ≤ fuel → Unlinked rest →
    links fuel x (vs ++ rest) = some (y, rest)) : IsLinked (us ++ vs) y := by
  obtain ⟨t, ts, rfl, hleading, hread⟩ := h
  intro rest fuel hfuel hrest
  simp only [List.length_append, List.length_cons] at hfuel
  obtain ⟨fuel, rfl⟩ : ∃ k, fuel = k + 1 := ⟨fuel - 1, by omega⟩
  rw [List.append_assoc, List.cons_append, operand, hleading]
  dsimp only
  rw [hread (vs ++ rest) fuel (by rw [List.length_cons]; omega)]
  exact hlink rest fuel (by omega) hrest

/-- A member. -/
theorem prop (h : IsAtom us x) (m : String) :
    IsLinked (us ++ [.symbol "->", .word m]) (.mk .prop [x] (some (.name m))) := by
  refine h.link fun rest fuel hfuel hrest => ?_
  simp only [List.length_cons, List.length_nil] at hfuel
  obtain ⟨fuel, rfl⟩ : ∃ k, fuel = k + 1 := ⟨fuel - 1, by omega⟩
  have hnone : expect "(" rest = none := by
    cases rest with
    | nil => rfl
    | cons t rest =>
        cases t with
        | symbol s =>
            refine if_neg ?_
            rintro rfl
            exact hrest "(" rfl (by decide)
        | _ => rfl
  simp only [List.cons_append, List.nil_append]
  unfold links
  rw [if_pos rfl]
  dsimp only
  rw [hnone]
  exact links_stop (by omega) hrest

/-- A call of a method. -/
theorem methodCall (h : IsAtom us x) (m : String) (hargs : List.Forall₂ (IsExpr 0) uss xs) :
    IsLinked (us ++ [.symbol "->", .word m] ++ .symbol "(" :: (commaTokens uss ++ [.symbol ")"]))
      (.mk .methodCall (x :: xs) (some (.name m))) := by
  rw [List.append_assoc]
  refine h.link fun rest fuel hfuel hrest => ?_
  simp only [List.length_cons, List.length_append, List.length_nil] at hfuel
  obtain ⟨fuel, rfl⟩ : ∃ k, fuel = k + 1 := ⟨fuel - 1, by omega⟩
  simp only [List.cons_append, List.append_assoc, List.nil_append]
  unfold links
  rw [if_pos rfl]
  dsimp only
  rw [expect_symbol]
  dsimp only
  rw [list_read (Or.inl rfl) hargs rest fuel (by omega)]
  exact links_stop (by omega) hrest

/-- A call. -/
theorem call (h : IsAtom us x) (hargs : List.Forall₂ (IsExpr 0) uss xs) :
    IsLinked (us ++ .symbol "(" :: (commaTokens uss ++ [.symbol ")"]))
      (.ofArgs .call (x :: xs)) := by
  refine h.link fun rest fuel hfuel hrest => ?_
  simp only [List.length_cons, List.length_append, List.length_nil] at hfuel
  obtain ⟨fuel, rfl⟩ : ∃ k, fuel = k + 1 := ⟨fuel - 1, by omega⟩
  simp only [List.cons_append, List.append_assoc, List.nil_append]
  unfold links
  rw [if_neg (by decide), if_neg (by decide), if_pos rfl,
    list_read (Or.inl rfl) hargs rest fuel (by omega)]
  exact links_stop (by omega) hrest

/-- An element. -/
theorem index (h : IsAtom us x) (hkey : IsExpr 0 vs y) :
    IsLinked (us ++ .symbol "[" :: (vs ++ [.symbol "]"])) (.ofArgs .index [x, y]) := by
  refine h.link fun rest fuel hfuel hrest => ?_
  simp only [List.length_cons, List.length_append, List.length_nil] at hfuel
  obtain ⟨fuel, rfl⟩ : ∃ k, fuel = k + 1 := ⟨fuel - 1, by omega⟩
  have hcloser : Token.symbol "]" ∈ closers := by decide
  simp only [List.cons_append, List.append_assoc, List.nil_append]
  unfold links
  rw [if_neg (by decide), if_pos rfl,
    hkey _ fuel 0 (by omega) (Nat.le_refl 0) (.cons hcloser rest)]
  exact links_stop (by omega) hrest

/-- A step after a place. -/
theorem postfixed {s : String} {op : Op} (h : IsAtom us x) (hs : (s, op) ∈ postfixSymbols)
    (hx : x.isPlace = true) : IsLinked (us ++ [.symbol s]) (.ofArgs op [x]) := by
  refine h.link fun rest fuel hfuel hrest => ?_
  simp only [List.length_cons, List.length_nil] at hfuel
  obtain ⟨fuel, rfl⟩ : ∃ k, fuel = k + 1 := ⟨fuel - 1, by omega⟩
  have hall : ∀ e ∈ postfixSymbols, e.1 ≠ "->" ∧ e.1 ≠ "[" ∧ e.1 ≠ "(" ∧
      postfixSymbols.lookup e.1 = some e.2 := by decide
  have hsymbol : s ≠ "->" ∧ s ≠ "[" ∧ s ≠ "(" ∧ postfixSymbols.lookup s = some op :=
    hall (s, op) hs
  obtain ⟨harrow, hbracket, hparen, hlookup⟩ := hsymbol
  rw [List.singleton_append]
  unfold links
  rw [if_neg harrow, if_neg hbracket, if_neg hparen, hlookup]
  exact if_pos hx

end IsAtom

/-! ## Operators -/

/-- An operator before its operand. -/
theorem IsOperand.prefixed {p : Prefix} (h : IsOperand us x) (ht : prefix? t = some p)
    (hlevel : 18 ≤ p.level) (hy : p.apply x = some y) : IsOperand (t :: us) y := by
  intro rest fuel hfuel hlink hrest
  have hpos := List.length_pos_of_ne_nil h.ne_nil
  rw [List.length_cons] at hfuel
  obtain ⟨fuel, rfl⟩ : ∃ k, fuel = k + 1 + 1 := ⟨fuel - 2, by omega⟩
  have hread := h rest fuel (by omega) hlink hrest
  rw [List.cons_append, operand, ht]
  dsimp only
  rw [expr_of_operand (by omega) hread (hrest.mono hlevel)]
  simp only [Option.bind_eq_bind, Option.bind_some, hy]

/-- An infix operator is no link. -/
theorem unlinked_operator {i : Infix} (h : infix? t = some i) (rest : List Token) :
    Unlinked (t :: rest) := by
  intro s hs hmem
  obtain rfl := Option.some.inj hs
  have hall : ∀ s ∈ linkSymbols, infix? (.symbol s) = none := by decide
  rw [hall s hmem] at h
  cases h

/-- An infix operator between operands, of which the left one takes no operator of its level. -/
theorem IsOperand.infixed {i : Infix} (hx : IsOperand us x) (ht : infix? t = some i)
    (hop : i.op ≠ .ternary) (htight : IsLinked us x ∨ i.level < 18) (hy : IsOperand vs y) :
    IsExpr i.level (us ++ t :: vs) (.ofArgs i.op [x, y]) := by
  intro rest fuel level hfuel hlevel hrest
  have hpos := List.length_pos_of_ne_nil hx.ne_nil
  have hpos' := List.length_pos_of_ne_nil hy.ne_nil
  simp only [List.length_append, List.length_cons] at hfuel
  -- One unit of fuel is for the left operand and one for the operator.
  obtain ⟨fuel, rfl⟩ : ∃ k, fuel = k + 1 + 1 := ⟨fuel - 2, by omega⟩
  have hlink := unlinked_operator ht (vs ++ rest)
  have hleft : operand (fuel + 1) (us ++ t :: (vs ++ rest)) = some (x, t :: (vs ++ rest)) := by
    rcases htight with htight | htight
    · exact htight _ _ (by omega) hlink
    · refine hx _ _ (by omega) hlink fun u hu j hj => ?_
      obtain rfl := Option.some.inj hu
      obtain rfl := Option.some.inj (ht.symm.trans hj)
      exact htight
  have hright := hy.expr i.right rest fuel i.right (by omega) (Nat.le_refl _) hrest
  rw [List.append_assoc, List.cons_append, Read.expr, hleft]
  dsimp only [Option.bind_eq_bind, Option.bind_some]
  rw [infixes, ht]
  dsimp only
  rw [if_neg (Nat.not_lt.2 hlevel), if_neg nofun, if_neg hop, hright]
  exact infixes_stop (by omega) (hrest.stops level)

/-- A choice between two expressions. -/
theorem IsOperand.ternary (hx : IsOperand us x) (hy : IsExpr 0 vs y) (hz : IsExpr 6 ws z) :
    IsExpr 5 (us ++ .symbol "?" :: (vs ++ .symbol ":" :: ws)) (.ofArgs .ternary [x, y, z]) := by
  intro rest fuel level hfuel hlevel hrest
  have hpos := List.length_pos_of_ne_nil hx.ne_nil
  simp only [List.length_append, List.length_cons] at hfuel
  obtain ⟨fuel, rfl⟩ : ∃ k, fuel = k + 1 + 1 := ⟨fuel - 2, by omega⟩
  have ht : infix? (.symbol "?") = some ⟨.ternary, 5, .none⟩ := rfl
  have hcloser : Token.symbol ":" ∈ closers := by decide
  have hcond := hx (.symbol "?" :: (vs ++ .symbol ":" :: (ws ++ rest))) (fuel + 1) (by omega)
    (unlinked_operator ht _) fun u hu j hj => by
      obtain rfl := Option.some.inj hu
      obtain rfl := Option.some.inj (ht.symm.trans hj)
      decide
  have hthen := hy (.symbol ":" :: (ws ++ rest)) fuel 0 (by omega) (Nat.le_refl 0) (.cons hcloser _)
  have helse := hz rest fuel 6 (by omega) (Nat.le_refl 6) hrest
  simp only [List.append_assoc, List.cons_append]
  rw [Read.expr, hcond]
  dsimp only [Option.bind_eq_bind, Option.bind_some]
  rw [infixes, ht]
  dsimp only
  rw [if_neg (Nat.not_lt.2 hlevel), if_neg nofun, if_pos rfl, hthen]
  simp only [Option.bind_eq_bind, Option.bind_some, expect_symbol]
  rw [show Infix.right ⟨.ternary, 5, .none⟩ = 6 from rfl, helse]
  exact infixes_stop (by omega) (hrest.stops level)

end TypedPhp.Read
