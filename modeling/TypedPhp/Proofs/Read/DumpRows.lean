import TypedPhp.Proofs.Exec.Calls
import TypedPhp.Proofs.Expr.Ordinary
import TypedPhp.Proofs.Print.Stmt
import TypedPhp.Proofs.Read.Outline
import TypedPhp.Proofs.Read.Row

set_option autoImplicit false

/-!
# Rows of dumps

A dump tells the number of the line on which it stands. `Read.DumpRows text ns` says that the rows
of a text that begin with a dump are the dumps `ns`, in order, each whole on a row of its own. It
holds of the text of a statement list with the dumps in the list, if dumps stand nowhere but in
statement lists: one lemma for each kind of statement, for the texts that it is put together from.
-/

namespace TypedPhp

open Print (Layout Written lineBreak ok_of_bind)

/-! ## Dumps -/

namespace Node

/-- The node itself, if it is a call of the helper that dumps values. -/
def dump? (n : Node) : Option Node := if n.callee? = some "fuzz_dump" then some n else none

/-- The dumps anywhere in some trees, in order. -/
def dumps (ns : List Node) : List Node := collect dump? ns

/-- A dump stands alone on a row: with the number of the line, its value and a semicolon, behind
the blanks that the row begins with. -/
def StandsOn (n : Node) (row : List Char) : Prop :=
  ∃ x value indent, n = .call "fuzz_dump" [.name "__LINE__", x] ∧ Print.expr x = .ok value ∧
    row = List.replicate indent ' ' ++ ("fuzz_dump(__LINE__, ".toList ++ (value ++ ");".toList))

variable {n x y : Node} {ns ms : List Node}

theorem dumps_nil : dumps [] = [] := rfl

theorem dumps_append : dumps (ns ++ ms) = dumps ns ++ dumps ms := collect_append dump? ns ms

theorem dumps_cons : dumps (n :: ns) = dumps [n] ++ dumps ns := collect_cons dump? n ns

/-- The dumps in a node that is no call are those in its children. -/
theorem dumps_node {op : Op} {payload : Option Payload} {type : Option Ty} (hop : op ≠ .call) :
    dumps [mk op ns payload type] = dumps ns := by
  have hnone : (mk op ns payload type).dump? = none := by
    unfold dump? callee?
    split <;> simp_all
  rw [dumps, collect_node, hnone]
  rfl

/-- The name that a call calls is that of a child. -/
theorem exists_of_callee? {s : String} (h : n.callee? = some s) :
    ∃ c ∈ n.args, c.ident? = some s := by
  unfold callee? at h
  split at h
  · rename_i name _ _ _ _ _
    obtain rfl := Option.some.inj h
    exact ⟨_, List.mem_cons_self, rfl⟩
  · cases h

/-- An expression with ordinary names has no dump in it. -/
theorem dumps_of_ordinary (h : ∀ n ∈ ns, n.Every Ordinary) : dumps ns = [] := by
  refine List.eq_nil_iff_forall_not_mem.2 fun m hm => ?_
  obtain ⟨n, hn, k, hk, hdump⟩ := mem_collect.1 hm
  unfold dump? at hdump
  split at hdump
  · rename_i hcallee
    obtain ⟨c, hc, hident⟩ := exists_of_callee? hcallee
    have hsub : c ∈ n.subterms :=
      mem_subterms_trans hk (mem_subterms_of_args hc c.self_mem_subterms)
    exact (h n hn c hsub _ hident).2 rfl
  · cases hdump

/-- A dump of an expression with ordinary names is the only dump in it. -/
theorem dumps_dump (hx : x.Every Ordinary) :
    dumps [.call "fuzz_dump" [.name "__LINE__", x]] =
      [.call "fuzz_dump" [.name "__LINE__", x]] := by
  have hargs : dumps [.name "fuzz_dump", .name "__LINE__", x] = dumps [x] := rfl
  rw [dumps, call, ofArgs, collect_node, ← dumps, hargs,
    dumps_of_ordinary (List.forall_mem_singleton.2 hx)]
  rfl

end Node

namespace Read

/-! ## Rows -/

/-- Whether a row begins with a dump. -/
def beginsDump (row : List Char) : Bool :=
  "fuzz_dump(".toList.isPrefixOf (row.dropWhile (· == ' '))

/-- The rows of a text below its first row. -/
def rowsBelow (text : List Char) : List (List Char) := (text.splitOn '\n').tail

/-- The text consists of whole rows, and those that begin with a dump are the given dumps, in
order, each alone on its row. -/
structure DumpRows (text : List Char) (ns : List Node) : Prop where
  ends : EndsRow text
  rows : List.Forall₂ Node.StandsOn ns ((rowsBelow text).filter beginsDump)

section Rows

variable {x y text first last : List Char} {ns ms : List Node} {indent : Nat}

/-- The rows of two texts, where the second begins with a line break. -/
theorem rowsBelow_append (hy : EndsRow y) : rowsBelow (x ++ y) = rowsBelow x ++ rowsBelow y := by
  cases y with
  | nil => simp [rowsBelow]
  | cons c y =>
      obtain rfl := hy c rfl
      have hbreak : ('\n' :: y).splitOn '\n' = [] :: y.splitOn '\n' :=
        List.splitOn_append_cons_self [] y
      rw [rowsBelow, List.splitOn_append_cons_self, List.tail_append_of_ne_nil (by simp), rowsBelow,
        rowsBelow, hbreak, List.tail_cons]

theorem rowsBelow_row (hrow : '\n' ∉ text) : rowsBelow ('\n' :: text) = [text] := by
  have hbreak : ('\n' :: text).splitOn '\n' = [] :: text.splitOn '\n' :=
    List.splitOn_append_cons_self [] text
  rw [rowsBelow, hbreak, List.splitOn_eq_singleton hrow, List.tail_cons]

/-- The rows of a text with its first row. -/
theorem splitOn_eq_cons (hrow : '\n' ∉ text) (hx : EndsRow x) :
    (text ++ x).splitOn '\n' = text :: rowsBelow x := by
  cases x with
  | nil => rw [List.append_nil, List.splitOn_eq_singleton hrow, rowsBelow, List.splitOn_nil]; rfl
  | cons c x =>
      obtain rfl := hx c rfl
      have hbreak : ('\n' :: x).splitOn '\n' = [] :: x.splitOn '\n' :=
        List.splitOn_append_cons_self [] x
      rw [List.splitOn_append_cons_self_of_not_mem hrow, rowsBelow, hbreak, List.tail_cons]

theorem newline_notMem_blanks (hrow : '\n' ∉ text) (n : Nat) :
    '\n' ∉ List.replicate n ' ' ++ text :=
  List.not_mem_append (fun hmem => absurd (List.eq_of_mem_replicate hmem) (by decide)) hrow

theorem beginsDump_blanks (n : Nat) :
    beginsDump (List.replicate n ' ' ++ text) = beginsDump text := by
  have hblanks : ∀ c ∈ List.replicate n ' ', (c == ' ') = true :=
    fun c hc => beq_iff_eq.2 (List.eq_of_mem_replicate hc)
  rw [beginsDump, List.dropWhile_append_of_pos hblanks, beginsDump]

/-- A text begins with a dump only if that is its first word. -/
theorem beginsDump_of_firstWord (hblank : ∀ c ∈ x.head?, c ≠ ' ')
    (hword : x.takeWhile identChar ≠ "fuzz_dump".toList) : beginsDump x = false := by
  have hdrop : x.dropWhile (· == ' ') = x := by
    cases x with
    | nil => rfl
    | cons c x => exact List.dropWhile_cons_of_neg (by simpa using hblank c rfl)
  rw [beginsDump, hdrop, ← Bool.not_eq_true, List.isPrefixOf_iff_prefix]
  rintro ⟨rest, rfl⟩
  exact hword rfl

/-- An expression does not begin with a dump unless its first name is that of the helper. -/
theorem Begins.not_dump (h : Begins (· ≠ "fuzz_dump") x) : beginsDump x = false := by
  cases h with
  | own hown =>
      refine beginsDump_of_firstWord ?_ (firstWord_ne hown (by decide) (by decide))
      intro c hc hblank
      cases x with
      | nil => cases hc
      | cons d x =>
          obtain rfl := Option.some.inj hc
          rw [hblank] at hown
          cases hown
  | @name s rest hs hne hrest =>
      obtain ⟨c, tail, heq, hstart, htail⟩ := exists_of_isIdentifier hs
      have hall : ∀ d ∈ s.toList, identChar d = true := by
        rw [heq]
        refine List.forall_mem_cons.2 ⟨?_, htail⟩
        rw [identChar, hstart, Bool.true_or]
      refine beginsDump_of_firstWord ?_ ?_
      · intro d hd hblank
        rw [heq] at hd
        obtain rfl := Option.some.inj hd
        rw [hblank] at hstart
        cases hstart
      · rw [takeWhile_run hall hrest]
        exact fun h => hne (String.toList_inj.1 h)

namespace DumpRows

theorem nil : DumpRows [] [] := ⟨.nil, .nil⟩

theorem append (hx : DumpRows x ns) (hy : DumpRows y ms) : DumpRows (x ++ y) (ns ++ ms) := by
  refine ⟨hx.ends.append hy.ends, ?_⟩
  rw [rowsBelow_append hy.ends, List.filter_append]
  exact List.rel_append hx.rows hy.rows

/-- A row without a dump. -/
theorem row (hrow : '\n' ∉ text) (h : beginsDump text = false) :
    DumpRows (lineBreak indent ++ text) [] := by
  refine ⟨.lineBreak, ?_⟩
  rw [lineBreak, List.cons_append, rowsBelow_row (newline_notMem_blanks hrow _),
    List.filter_singleton, beginsDump_blanks, h]
  exact .nil

/-- A row with a dump of an expression. -/
theorem dump {v : Node} {value : List Char} (hv : Print.expr v = .ok value) (hrow : '\n' ∉ value) :
    DumpRows (lineBreak indent ++ ("fuzz_dump(__LINE__, ".toList ++ (value ++ ");".toList)))
      [.call "fuzz_dump" [.name "__LINE__", v]] := by
  refine ⟨.lineBreak, ?_⟩
  have hdump : '\n' ∉ "fuzz_dump(__LINE__, ".toList ++ (value ++ ");".toList) :=
    List.not_mem_append (by decide) (List.not_mem_append hrow (by decide))
  have hbegins : beginsDump ("fuzz_dump(__LINE__, ".toList ++ (value ++ ");".toList)) = true := rfl
  rw [lineBreak, List.cons_append, rowsBelow_row (newline_notMem_blanks hdump _),
    List.filter_singleton, beginsDump_blanks, hbegins]
  exact .cons ⟨v, value, _, rfl, hv, rfl⟩ .nil

/-- Rows between two rows without a dump. -/
theorem enclosed (hx : DumpRows x ns) (hfirst : '\n' ∉ first) (hfirst' : beginsDump first = false)
    (hlast : '\n' ∉ last) (hlast' : beginsDump last = false) :
    DumpRows (lineBreak indent ++ first ++ (x ++ (lineBreak indent ++ last))) ns := by
  have hopen : DumpRows (lineBreak indent ++ first) [] := row hfirst hfirst'
  have hclose : DumpRows (lineBreak indent ++ last) [] := row hlast hlast'
  have hrows := hopen.append (hx.append hclose)
  rwa [List.nil_append, List.append_nil] at hrows

end DumpRows

end Rows

end Read

/-! ## Statements -/

namespace Print

open Node (dumps dumps_nil dumps_cons dumps_node dumps_of_ordinary)
open Read (DumpRows)

/-- The rows of a statement that begin with a dump are the dumps in it. -/
def StmtDumps (n : Node) : Prop := ∀ indent text, core indent n = .ok text →
  DumpRows ((Layout.of n.op).around indent text) (dumps [n])

/-- A case or a default whose statements have their dumps on rows of their own. -/
def ClauseDumps (n : Node) : Prop :=
  ∃ body, (∀ s ∈ body, StmtDumps s) ∧ (n = .ofArgs .defaultCase body ∨
    ∃ label, label.Every Node.Ordinary ∧ n = .ofArgs .case (label :: body))

section Lists

variable {indent : Nat} {ns : List Node} {text : List Char}

/-- The rows of statements on lines of their own. -/
theorem lines_dumps (hns : ∀ n ∈ ns, StmtDumps n) (h : lines indent ns = .ok text) :
    DumpRows text (dumps ns) := by
  induction ns generalizing text with
  | nil =>
      obtain rfl := Except.ok.inj h
      exact .nil
  | cons n ns ih =>
      rw [lines] at h
      obtain ⟨x, hx, h⟩ := ok_of_bind h
      obtain ⟨rest, hrest, h⟩ := ok_of_bind h
      obtain rfl := Except.ok.inj h
      rw [dumps_cons]
      exact (hns n List.mem_cons_self indent x hx).append
        (ih (fun m hm => hns m (List.mem_cons_of_mem n hm)) hrest)

theorem newline_notMem_of_ordinary {x : Node} (hx : x.Every Node.Ordinary)
    (h : expr x = .ok text) : '\n' ∉ text := by
  intro hmem
  have hnamed := hx.mono fun _ hm s hs => (hm s hs).isIdentifier
  exact absurd (expr_legible hnamed h _ hmem) (by decide)

/-- The rows of the cases of a switch. -/
theorem cases_dumps (hns : ∀ n ∈ ns, ClauseDumps n) (h : cases indent false ns = .ok text) :
    DumpRows text (dumps ns) := by
  induction ns generalizing text with
  | nil =>
      obtain rfl := Except.ok.inj h
      exact .nil
  | cons n ns ih =>
      have hrest : ∀ rest, cases indent false ns = .ok rest → DumpRows rest (dumps ns) :=
        fun rest => ih fun m hm => hns m (List.mem_cons_of_mem n hm)
      rw [dumps_cons]
      -- A clause is a row for its word and label, which holds no dump, and the rows of its body.
      obtain ⟨body, hbody, rfl | ⟨label, hlabel, rfl⟩⟩ := hns n List.mem_cons_self
      · rw [Node.ofArgs, cases, if_neg (by decide)] at h
        obtain ⟨x, hx, h⟩ := ok_of_bind h
        obtain ⟨head, hhead, h⟩ := ok_of_bind h
        obtain ⟨rest, htail, h⟩ := ok_of_bind h
        obtain rfl := Except.ok.inj hhead
        obtain rfl := Except.ok.inj h
        rw [Node.ofArgs, dumps_node (by decide)]
        have hword : DumpRows (lineBreak indent ++ "default:".toList) [] :=
          .row (by decide) (by decide)
        exact (hword.append (lines_dumps hbody hx)).append (hrest rest htail)
      · rw [Node.ofArgs, cases, if_neg (by decide)] at h
        obtain ⟨value, hvalue, h⟩ := ok_of_bind h
        obtain ⟨x, hx, h⟩ := ok_of_bind h
        obtain ⟨head, hhead, h⟩ := ok_of_bind h
        obtain ⟨rest, htail, h⟩ := ok_of_bind h
        obtain rfl := Except.ok.inj hhead
        obtain rfl := Except.ok.inj h
        rw [Node.ofArgs, dumps_node (by decide), dumps_cons,
          dumps_of_ordinary (List.forall_mem_singleton.2 hlabel)]
        have hnewline : '\n' ∉ "case ".toList ++ (value ++ [':']) :=
          List.not_mem_append (by decide)
            (List.not_mem_append (newline_notMem_of_ordinary hlabel hvalue) (by decide))
        have hword : DumpRows (lineBreak indent ++ ("case ".toList ++ (value ++ [':']))) [] :=
          .row hnewline rfl
        have hclause := (hword.append (lines_dumps hbody hx)).append (hrest rest htail)
        simpa using hclause

end Lists

/-! ### Statements of one row -/

/-- A simple statement without a dump, on its row. -/
theorem StmtDumps.of_row {op : Op} {args : List Node} {payload : Option Payload} {type : Option Ty}
    (hlayout : Layout.of op = .simple) (hdumps : dumps [.mk op args payload type] = [])
    (h : ∀ indent text, core indent (.mk op args payload type) = .ok text →
      '\n' ∉ text ∧ Read.beginsDump (text ++ [';']) = false) :
    StmtDumps (.mk op args payload type) := by
  intro indent text htext
  obtain ⟨hrow, hword⟩ := h indent text htext
  rw [Node.op, hlayout, hdumps]
  have haround : Layout.simple.around indent text = lineBreak indent ++ (text ++ [';']) :=
    List.append_assoc _ _ _
  rw [haround]
  exact .row (List.not_mem_append hrow (by decide)) hword

namespace StmtDumps

section OneRow

variable {n x : Node} {values : List Node}

/-- An expression as a statement. -/
theorem expr (hop : n.op.isStmt = false) (hn : n.Every Node.Ordinary) : StmtDumps n := by
  obtain ⟨op, args, payload, type⟩ := n
  have hlayout : Layout.of op = .simple := by
    cases op <;> first | rfl | cases hop
  have hdumps := dumps_of_ordinary (List.forall_mem_singleton.2 hn)
  refine .of_row hlayout hdumps fun indent text h => ?_
  rw [core_of_expr hop] at h
  have hbegins : Read.Begins (· ≠ "fuzz_dump") text :=
    Node.Every.begins (hn.mono fun _ hm s hs => ⟨(hm s hs).isIdentifier, fun _ => (hm s hs).2⟩) h
  exact ⟨newline_notMem_of_ordinary hn h, (hbegins.append (by decide)).not_dump⟩

/-- A dump of an expression. -/
theorem dump (hx : x.Every Node.Ordinary) :
    StmtDumps (.call "fuzz_dump" [.name "__LINE__", x]) := by
  intro indent text h
  obtain ⟨callee, hcallee, h⟩ := ok_of_bind h
  obtain ⟨list, hlist, h⟩ := ok_of_bind h
  obtain rfl := Except.ok.inj hcallee
  obtain rfl := Except.ok.inj h
  obtain ⟨line, hline, hlist⟩ := ok_of_bind hlist
  obtain ⟨value, hvalue, hlist⟩ := ok_of_bind hlist
  obtain rfl := Except.ok.inj hline
  obtain rfl := Except.ok.inj hlist
  rw [Node.dumps_dump hx]
  have hrow : DumpRows
      (lineBreak indent ++ ("fuzz_dump(__LINE__, ".toList ++ (value ++ ");".toList))) _ :=
    .dump hvalue (newline_notMem_of_ordinary hx hvalue)
  have haround : (Layout.of (Node.call "fuzz_dump" [.name "__LINE__", x]).op).around indent
      ("fuzz_dump".toList ++ '(' :: ("__LINE__".toList ++ ", ".toList ++ value ++ [')'])) =
      lineBreak indent ++ ("fuzz_dump(__LINE__, ".toList ++ (value ++ ");".toList)) := by
    simp [Layout.around, Layout.of, Layout.simple, Node.call, Node.ofArgs, Node.op]
  exact haround ▸ hrow

/-- A jump out of a loop or a switch, or back to the start of a loop. -/
theorem jump {op : Op} (hop : op ∈ [.breakJump, .continueJump, .returnVoid]) :
    StmtDumps (.ofArgs op []) := by
  simp only [List.mem_cons, List.not_mem_nil, or_false] at hop
  rcases hop with rfl | rfl | rfl
  all_goals
    refine .of_row rfl rfl fun indent text h => ?_
    obtain rfl := Except.ok.inj h
    decide

/-- A return of a value. -/
theorem ret (hx : x.Every Node.Ordinary) : StmtDumps (.ret x) := by
  refine .of_row rfl ?_ fun indent text h => ?_
  · rw [dumps_node (by decide), dumps_of_ordinary (List.forall_mem_singleton.2 hx)]
  · obtain ⟨value, hvalue, h⟩ := ok_of_bind h
    obtain rfl := Except.ok.inj h
    exact ⟨List.not_mem_append (by decide) (newline_notMem_of_ordinary hx hvalue), rfl⟩

/-- An output of values. -/
theorem echo (hvalues : ∀ x ∈ values, x.Every Node.Ordinary) :
    StmtDumps (.ofArgs .echo values) := by
  refine .of_row rfl ?_ fun indent text h => ?_
  · rw [dumps_node (by decide), dumps_of_ordinary hvalues]
  · obtain ⟨list, hlist, h⟩ := ok_of_bind h
    obtain rfl := Except.ok.inj h
    refine ⟨List.not_mem_append (by decide) fun hmem => ?_, rfl⟩
    rw [exprEach_eq_map] at hlist
    refine commaList_forall (R := (· ≠ '\n')) ?_ (fun y hy d hd heq => ?_) hlist '\n' hmem rfl
    · rintro d hd rfl
      exact absurd hd (by decide)
    · obtain ⟨x, hx, hy⟩ := List.mem_map.1 hy
      exact newline_notMem_of_ordinary (hvalues x hx) hy (heq ▸ hd)

end OneRow

/-! ### Statements with bodies -/

section Bodies

variable {cond tag : Node} {body other ns : List Node} {indent : Nat} {text head x : List Char}

/-- The text of a block has its statements on rows of their own. -/
theorem body_text (hbody : ∀ n ∈ body, StmtDumps n) (h : core indent (.block body) = .ok text) :
    ∃ x, text = '\x7b' :: (x ++ lineBreak indent ++ ['\x7d']) ∧ DumpRows x (dumps body) := by
  obtain ⟨x, hx, h⟩ := ok_of_bind h
  obtain rfl := Except.ok.inj h
  exact ⟨x, rfl, lines_dumps hbody hx⟩

/-- A block after the head of its statement. -/
theorem body_dumps (hx : DumpRows x ns) (hhead : '\n' ∉ head)
    (hword : Read.beginsDump (head ++ ['\x7b']) = false) :
    DumpRows (Layout.block.around indent (head ++ '\x7b' :: (x ++ lineBreak indent ++ ['\x7d'])))
      ns := by
  have hrows : DumpRows
      (lineBreak indent ++ (head ++ ['\x7b']) ++ (x ++ (lineBreak indent ++ ['\x7d']))) ns :=
    hx.enclosed (List.not_mem_append hhead (by decide)) hword (by decide) (by decide)
  have haround :
      Layout.block.around indent (head ++ '\x7b' :: (x ++ lineBreak indent ++ ['\x7d'])) =
      lineBreak indent ++ (head ++ ['\x7b']) ++ (x ++ (lineBreak indent ++ ['\x7d'])) := by
    simp [Layout.around, Layout.block]
  rwa [haround]

theorem dumps_block : dumps (.block body :: ns) = dumps body ++ dumps ns := by
  rw [dumps_cons, Node.block, Node.ofArgs, dumps_node (by decide)]

theorem dumps_after (hx : cond.Every Node.Ordinary) : dumps (cond :: ns) = dumps ns := by
  rw [dumps_cons, dumps_of_ordinary (List.forall_mem_singleton.2 hx), List.nil_append]

theorem block (hbody : ∀ n ∈ body, StmtDumps n) : StmtDumps (.block body) := by
  intro indent text h
  obtain ⟨x, rfl, hx⟩ := body_text hbody h
  rw [dumps_block, dumps_nil, List.append_nil]
  exact body_dumps hx List.not_mem_nil (by decide)

/-- A body after its condition. -/
theorem headed {op : Op} (hhead : Heads op head) (hcond : cond.Every Node.Ordinary)
    (hbody : ∀ n ∈ body, StmtDumps n) : StmtDumps (.ofArgs op [cond, .block body]) := by
  intro indent text h
  obtain ⟨c, y, hc, hy, rfl⟩ := hhead.text_eq h
  obtain ⟨x, rfl, hx⟩ := body_text hbody hy
  have hc := newline_notMem_of_ordinary hcond hc
  have hrow : '\n' ∉ head ++ c ++ ") ".toList :=
    List.not_mem_append (List.not_mem_append hhead.newline_notMem hc) (by decide)
  have hdumps : dumps [.ofArgs op [cond, .block body]] = dumps body := by
    rw [Node.ofArgs, dumps_node (by cases hhead <;> decide), dumps_after hcond, dumps_block,
      dumps_nil, List.append_nil]
  rw [hdumps, Node.ofArgs, Node.op, hhead.layout_eq]
  exact body_dumps hx hrow (by cases hhead <;> rfl)

/-- A condition with an alternative, which stands on the row where the first body ends. -/
theorem ifElse (hcond : cond.Every Node.Ordinary) (hbody : ∀ n ∈ body, StmtDumps n)
    (hother : ∀ n ∈ other, StmtDumps n) :
    StmtDumps (.ifElse cond (.block body) (.block other)) := by
  intro indent text h
  obtain ⟨c, hc, h⟩ := ok_of_bind h
  obtain ⟨y, hy, h⟩ := ok_of_bind h
  obtain ⟨z, hz, h⟩ := ok_of_bind h
  obtain rfl := Except.ok.inj h
  obtain ⟨x, rfl, hx⟩ := body_text hbody hy
  obtain ⟨x', rfl, hx'⟩ := body_text hother hz
  have hc := newline_notMem_of_ordinary hcond hc
  rw [Node.ifElse, Node.ofArgs, dumps_node (by decide), dumps_after hcond, dumps_block, dumps_block,
    dumps_nil, List.append_nil]
  have hhead : '\n' ∉ "if (".toList ++ (c ++ ") \x7b".toList) :=
    List.not_mem_append (by decide) (List.not_mem_append hc (by decide))
  have hfirst : DumpRows (lineBreak indent ++ ("if (".toList ++ (c ++ ") \x7b".toList)) ++
      (x ++ (lineBreak indent ++ "\x7d else \x7b".toList))) (dumps body) :=
    hx.enclosed hhead rfl (by decide) (by decide)
  have hlast : DumpRows (lineBreak indent ++ ['\x7d']) [] := .row (by decide) (by decide)
  have hrows := hfirst.append (hx'.append hlast)
  rw [List.append_nil] at hrows
  simpa [Layout.around, Layout.of, Layout.block, Node.op] using hrows

/-- A loop that checks its condition last, on the row where its body ends. -/
theorem doWhile (hbody : ∀ n ∈ body, StmtDumps n) (hcond : cond.Every Node.Ordinary) :
    StmtDumps (.ofArgs .doWhile [.block body, cond]) := by
  intro indent text h
  obtain ⟨y, hy, h⟩ := ok_of_bind h
  obtain ⟨c, hc, h⟩ := ok_of_bind h
  obtain rfl := Except.ok.inj h
  obtain ⟨x, rfl, hx⟩ := body_text hbody hy
  have hc := newline_notMem_of_ordinary hcond hc
  rw [Node.ofArgs, dumps_node (by decide), dumps_block, dumps_after hcond, dumps_nil,
    List.append_nil]
  have hlast : '\n' ∉ "\x7d while (".toList ++ (c ++ ");".toList) :=
    List.not_mem_append (by decide) (List.not_mem_append hc (by decide))
  have hrows : DumpRows (lineBreak indent ++ "do \x7b".toList ++
      (x ++ (lineBreak indent ++ ("\x7d while (".toList ++ (c ++ ");".toList))))) (dumps body) :=
    hx.enclosed (by decide) (by decide) hlast rfl
  simpa [Layout.around, Layout.of, Layout.simple, Node.op] using hrows

/-- A switch over cases. -/
theorem switch (htag : tag.Every Node.Ordinary) (hns : ∀ n ∈ ns, ClauseDumps n) :
    StmtDumps (.ofArgs .switch (tag :: ns)) := by
  intro indent text h
  obtain ⟨c, hc, h⟩ := ok_of_bind h
  obtain ⟨x, hx, h⟩ := ok_of_bind h
  obtain rfl := Except.ok.inj h
  have hx : cases (indent + 1) false ns = .ok x := by
    obtain ⟨op, args, payload, type⟩ := tag
    exact hx
  have hc := newline_notMem_of_ordinary htag hc
  rw [Node.ofArgs, dumps_node (by decide), dumps_after htag]
  have hhead : '\n' ∉ "switch (".toList ++ (c ++ ") \x7b".toList) :=
    List.not_mem_append (by decide) (List.not_mem_append hc (by decide))
  have hrows : DumpRows (lineBreak indent ++ ("switch (".toList ++ (c ++ ") \x7b".toList)) ++
      (x ++ (lineBreak indent ++ ['\x7d']))) (dumps ns) :=
    (cases_dumps hns hx).enclosed hhead rfl (by decide) (by decide)
  simpa [Layout.around, Layout.of, Layout.block, Node.op] using hrows

end Bodies

end StmtDumps

end Print

end TypedPhp
