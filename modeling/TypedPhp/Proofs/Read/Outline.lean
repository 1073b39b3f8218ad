import TypedPhp.Print.Stmt
import TypedPhp.Proofs.Read.Row

set_option autoImplicit false

/-!
# Outlines of statements

The outline of a statement is what its layout shows: which statement it is, the texts of the
expressions that belong to it, and the outlines of the statements inside it. A reader takes it from
the rows of the text alone, by the first word of a row, its last characters and the blanks before
it. Its fuel counts the calls that are open, and it is enough to know that some fuel is
(`Read.Settles`).
-/

namespace TypedPhp

open Print (Written lineBreak)

/-! ## Outlines -/

/-- What the layout of a statement shows: the text of an expression statement, or the operator of
another statement, the texts of its expressions and the statements inside it. Expressions are not
taken apart, so whether one is an assignment or a call is not shown. -/
inductive Outline where
  | expression (text : Written)
  | statement (op : Op) (texts : List Written) (inner : List Outline)

namespace Node

mutual

/-- The outline of a statement. -/
@[simp] def outline : Node → Outline
  | mk op args payload type =>
    match op, args with
    | .block, inner | .defaultCase, inner
    | .breakJump, inner | .continueJump, inner | .returnVoid, inner =>
      .statement op [] (outlines inner)
    | .ifThen, x :: inner | .ifElse, x :: inner | .whileLoop, x :: inner | .switch, x :: inner
    | .case, x :: inner | .returnValue, x :: inner => .statement op [Print.expr x] (outlines inner)
    | .doWhile, [body, cond] => .statement op [Print.expr cond] [outline body]
    | .echo, values => .statement op [Print.commaList (Print.exprEach values)] []
    | _, _ => .expression (Print.expr (mk op args payload type))

/-- The outlines of several statements. -/
@[simp] def outlines : List Node → List Outline
  | [] => []
  | n :: ns => outline n :: outlines ns

end

theorem outlines_eq_map : ∀ ns : List Node, outlines ns = ns.map outline
  | [] => rfl
  | n :: ns => by
      rw [outlines, outlines_eq_map ns]
      rfl

end Node

/-! ## The reader -/

namespace Read

/-- What stands between two texts. -/
def between? (opening closing row : List Char) : Option (List Char) := do
  let x ← opening.isPrefixOf? row
  closing.isSuffixOf? x

/-- The text up to the end of the row. -/
def rowOf (text : List Char) : List Char := text.takeWhile (· != '\n')

/-- The text from the end of the row on. -/
def belowRow (text : List Char) : List Char := text.dropWhile (· != '\n')

mutual

/-- The statements at a depth, up to a row that is less deep. -/
@[simp] def stmts : (fuel : Nat) → (indent : Nat) → List Char → Option (List Outline × List Char)
  | 0, _, _ => none
  | fuel + 1, indent, text =>
    match (lineBreak indent).isPrefixOf? text with
    | none => some ([], text)
    | some text => do
      let (s, rest) ← stmt fuel indent (rowOf text) (belowRow text)
      let (ss, rest) ← stmts fuel indent rest
      some (s :: ss, rest)

/-- A statement, from its first row and what is below. -/
@[simp] def stmt : (fuel : Nat) → (indent : Nat) → (row below : List Char) →
    Option (Outline × List Char)
  | 0, _, _, _ => none
  | fuel + 1, indent, row, below =>
    match statement? row with
    | some .ifThen => do
      let cond ← between? "if (".toList ") \x7b".toList row
      let (body, rest) ← block fuel indent below
      match " else \x7b".toList.isPrefixOf? rest with
      | none => some (.statement .ifThen [.ok cond] [body], rest)
      | some rest => do
        let (otherwise, rest) ← block fuel indent rest
        some (.statement .ifElse [.ok cond] [body, otherwise], rest)
    | some .whileLoop => do
      let cond ← between? "while (".toList ") \x7b".toList row
      let (body, rest) ← block fuel indent below
      some (.statement .whileLoop [.ok cond] [body], rest)
    | some .doWhile => do
      let (body, rest) ← block fuel indent below
      let cond ← between? " while (".toList ");".toList (rowOf rest)
      some (.statement .doWhile [.ok cond] [body], belowRow rest)
    | some .switch => do
      let tag ← between? "switch (".toList ") \x7b".toList row
      let (body, rest) ← clauses fuel (indent + 1) below
      let rest ← (lineBreak indent ++ ['\x7d']).isPrefixOf? rest
      some (.statement .switch [.ok tag] body, rest)
    | some .returnValue =>
      if row = "return;".toList then some (.statement .returnVoid [] [], below)
      else do
        let value ← between? "return ".toList [';'] row
        some (.statement .returnValue [.ok value] [], below)
    | some .echo => do
      let values ← between? "echo ".toList [';'] row
      some (.statement .echo [.ok values] [], below)
    | some op => some (.statement op [] [], below)
    | none =>
      if row = ['\x7b'] then block fuel indent below
      else do
        let x ← between? [] [';'] row
        some (.expression (.ok x), below)

/-- A block, after its opening brace. -/
@[simp] def block : (fuel : Nat) → (indent : Nat) → List Char → Option (Outline × List Char)
  | 0, _, _ => none
  | fuel + 1, indent, text => do
    let (body, rest) ← stmts fuel (indent + 1) text
    let rest ← (lineBreak indent ++ ['\x7d']).isPrefixOf? rest
    some (.statement .block [] body, rest)

/-- The cases of a switch and its default at a depth, up to a row that is less deep. -/
@[simp] def clauses : (fuel : Nat) → (indent : Nat) → List Char → Option (List Outline × List Char)
  | 0, _, _ => none
  | fuel + 1, indent, text =>
    match (lineBreak indent).isPrefixOf? text with
    | none => some ([], text)
    | some text => do
      let (c, rest) ← clause fuel indent (rowOf text) (belowRow text)
      let (cs, rest) ← clauses fuel indent rest
      some (c :: cs, rest)

/-- A case or a default, from its row and what is below. -/
@[simp] def clause : (fuel : Nat) → (indent : Nat) → (row below : List Char) →
    Option (Outline × List Char)
  | 0, _, _, _ => none
  | fuel + 1, indent, row, below => do
    let (body, rest) ← stmts fuel (indent + 1) below
    match between? "case ".toList [':'] row with
    | some label => some (.statement .case [.ok label] body, rest)
    | none => some (.statement .defaultCase [] body, rest)

end

/-! ## Fuel -/

section Fuel

variable {α β : Type} {p : Nat → Option α} {a b : α}

/-- A reader finds a value with every fuel that is large enough. -/
def Settles (p : Nat → Option α) (a : α) : Prop := ∃ least, ∀ fuel, least ≤ fuel → p fuel = some a

namespace Settles

theorem pure (a : α) : Settles (fun _ => some a) a := ⟨0, fun _ _ => rfl⟩

theorem of_succ (h : Settles (fun fuel => p (fuel + 1)) a) : Settles p a := by
  obtain ⟨least, h⟩ := h
  refine ⟨least + 1, fun fuel hfuel => ?_⟩
  obtain ⟨fuel, rfl⟩ : ∃ k, fuel = k + 1 := ⟨fuel - 1, by omega⟩
  exact h fuel (by omega)

/-- One reader after another. -/
theorem bind {q : Nat → α → Option β} {b : β} (hp : Settles p a)
    (hq : Settles (fun fuel => q fuel a) b) : Settles (fun fuel => p fuel >>= q fuel) b := by
  obtain ⟨least, hp⟩ := hp
  obtain ⟨least', hq⟩ := hq
  refine ⟨max least least', fun fuel hfuel => ?_⟩
  have hfirst := hp fuel (by omega)
  have hsecond := hq fuel (by omega)
  show p fuel >>= q fuel = some b
  rw [hfirst]
  exact hsecond

/-- A reader finds one value at most. -/
theorem unique (ha : Settles p a) (hb : Settles p b) : a = b := by
  obtain ⟨least, ha⟩ := ha
  obtain ⟨least', hb⟩ := hb
  have heq := ha (max least least') (by omega)
  rw [hb (max least least') (by omega)] at heq
  exact (Option.some.inj heq).symm

end Settles

end Fuel

/-! ## Rows -/

section Rows

variable {indent : Nat} {row below rest x y : List Char} {c : Char}

/-- The text is empty or begins with a line break. -/
def EndsRow (text : List Char) : Prop := ∀ c ∈ text.head?, c = '\n'

theorem EndsRow.nil : EndsRow [] := nofun

theorem EndsRow.cons : EndsRow ('\n' :: x) := fun _ hc => (Option.some.inj hc).symm

theorem EndsRow.lineBreak : EndsRow (lineBreak indent ++ x) := .cons

theorem EndsRow.append (hx : EndsRow x) (hy : EndsRow y) : EndsRow (x ++ y) := by
  cases x with
  | nil => exact hy
  | cons c x => exact hx

theorem rowOf_append (hrow : '\n' ∉ row) (hbelow : EndsRow below) : rowOf (row ++ below) = row := by
  apply takeWhile_run
  · intro c hc
    exact bne_iff_ne.2 fun heq => hrow (heq ▸ hc)
  · intro c hc
    rw [hbelow c hc]
    rfl

theorem belowRow_append (hrow : '\n' ∉ row) (hbelow : EndsRow below) :
    belowRow (row ++ below) = below := by
  apply dropWhile_run
  · intro c hc
    exact bne_iff_ne.2 fun heq => hrow (heq ▸ hc)
  · intro c hc
    rw [hbelow c hc]
    rfl

theorem isPrefixOf?_append : x.isPrefixOf? (x ++ y) = some y :=
  List.isPrefixOf?_eq_some_iff_append_eq.2 rfl

theorem isPrefixOf?_of_endsRow (hc : c ≠ '\n') (hrest : EndsRow rest) :
    (c :: x).isPrefixOf? rest = none := by
  refine Option.eq_none_iff_forall_ne_some.2 fun y hy => ?_
  obtain rfl := List.isPrefixOf?_eq_some_iff_append_eq.1 hy
  exact hc (hrest c rfl)

theorem between?_append : between? x y (x ++ (rest ++ y)) = some rest := by
  rw [between?, isPrefixOf?_append]
  exact List.isSuffixOf?_eq_some_iff_append_eq.2 rfl

/-- Rows before a line break begin with a line break. -/
theorem EndsRow.exists_eq_cons (h : EndsRow x) :
    ∃ below, x ++ (Print.lineBreak indent ++ y) = '\n' :: below := by
  cases x with
  | nil => exact ⟨_, rfl⟩
  | cons c x =>
      obtain rfl := h c rfl
      exact ⟨_, rfl⟩

theorem isPrefixOf?_closing : (lineBreak indent ++ ['\x7d']).isPrefixOf?
    (lineBreak indent ++ (['\x7d'] ++ rest)) = some rest :=
  List.isPrefixOf?_eq_some_iff_append_eq.2 (List.append_assoc _ _ _)

/-! ## Depth -/

/-- The text ends a row, and the next row is less deep. -/
def Shallow (indent : Nat) (rest : List Char) : Prop :=
  EndsRow rest ∧ (lineBreak indent).isPrefixOf? rest = none

theorem lineBreak_succ : lineBreak (indent + 1) = lineBreak indent ++ [' ', ' '] := by
  rw [lineBreak, Nat.mul_succ, List.replicate_add]
  rfl

theorem Shallow.nil : Shallow indent [] := ⟨.nil, rfl⟩

theorem Shallow.succ (h : Shallow indent rest) : Shallow (indent + 1) rest := by
  refine ⟨h.1, Option.eq_none_iff_forall_ne_some.2 fun y hy => ?_⟩
  obtain rfl := List.isPrefixOf?_eq_some_iff_append_eq.1 hy
  have hnone := h.2
  rw [lineBreak_succ, List.append_assoc, isPrefixOf?_append] at hnone
  cases hnone

theorem Shallow.lineBreak (hc : c ≠ ' ') : Shallow (indent + 1) (lineBreak indent ++ c :: x) := by
  refine ⟨.lineBreak, Option.eq_none_iff_forall_ne_some.2 fun y hy => ?_⟩
  have heq := List.isPrefixOf?_eq_some_iff_append_eq.1 hy
  rw [lineBreak_succ, List.append_assoc] at heq
  exact hc (List.cons.inj (List.append_cancel_left heq)).1.symm

end Rows

end Read

/-! ## Heads of bodies -/

namespace Print

/-- The statements of a condition and one body after it, with what is written before the
condition. -/
inductive Heads : Op → List Char → Prop where
  | ifThen : Heads .ifThen "if (".toList
  | whileLoop : Heads .whileLoop "while (".toList

namespace Heads

variable {op : Op} {cond body : Node} {payload : Option Payload} {type : Option Ty} {indent : Nat}
  {word text : List Char}

theorem layout_eq (h : Heads op word) : Layout.of op = .block := by
  cases h <;> rfl

theorem newline_notMem (h : Heads op word) : '\n' ∉ word := by
  cases h <;> decide

/-- The text is that of the condition in parentheses, and that of the body. -/
theorem text_eq (h : Heads op word)
    (htext : core indent (.mk op [cond, body] payload type) = .ok text) :
    ∃ x y, expr cond = .ok x ∧ core indent body = .ok y ∧ text = word ++ x ++ ") ".toList ++ y := by
  cases h <;>
  · obtain ⟨x, hx, htext⟩ := ok_of_bind htext
    obtain ⟨y, hy, htext⟩ := ok_of_bind htext
    exact ⟨x, y, hx, hy, (Except.ok.inj htext).symm⟩

end Heads

end Print

end TypedPhp
