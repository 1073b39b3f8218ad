import TypedPhp.Proofs.Print.Emitter
import TypedPhp.Proofs.Read.Outline

set_option autoImplicit false

/-!
# Statements are read back

The layout of well-formed statements tells where each of them begins and ends
(`Node.WellFormed.recovers`), so two lists with the same text have the same outlines. The induction
follows the well-formed statements; around it, a list at one depth ends where a row is less deep.
-/

namespace TypedPhp

open Print (Written Layout lineBreak)

/-! ## Well-formed statements -/

namespace Node

/-- Where a statement stands: in a list, as the body of a condition or loop, or under a switch. -/
inductive Role where
  | statement
  | body
  | case
  | defaultCase

/-- A well-formed statement. Bodies are blocks, and the children of a switch after its tag are
cases and possibly one default at the end. -/
inductive WellFormed : Role → Node → Prop where
  | expression {n : Node} : n.op ∈ [.assign, .assignModify, .call, .methodCall] → n.Every Named →
      WellFormed .statement n
  | jump {op : Op} (payload : Option Payload) (type : Option Ty) :
      op ∈ [.breakJump, .continueJump, .returnVoid] →
      WellFormed .statement (mk op [] payload type)
  | returnValue {x : Node} (payload : Option Payload) (type : Option Ty) : x.Every Named →
      WellFormed .statement (mk .returnValue [x] payload type)
  | echo {values : List Node} (payload : Option Payload) (type : Option Ty) : values ≠ [] →
      (∀ x ∈ values, x.Every Named) → WellFormed .statement (mk .echo values payload type)
  | body {stmts : List Node} (payload : Option Payload) (type : Option Ty) :
      (∀ n ∈ stmts, WellFormed .statement n) → WellFormed .body (mk .block stmts payload type)
  | block {n : Node} : WellFormed .body n → WellFormed .statement n
  | ifThen {cond body : Node} (payload : Option Payload) (type : Option Ty) : cond.Every Named →
      WellFormed .body body → WellFormed .statement (mk .ifThen [cond, body] payload type)
  | ifElse {cond body otherwise : Node} (payload : Option Payload) (type : Option Ty) :
      cond.Every Named → WellFormed .body body → WellFormed .body otherwise →
      WellFormed .statement (mk .ifElse [cond, body, otherwise] payload type)
  | whileLoop {cond body : Node} (payload : Option Payload) (type : Option Ty) :
      cond.Every Named → WellFormed .body body →
      WellFormed .statement (mk .whileLoop [cond, body] payload type)
  | doWhile {body cond : Node} (payload : Option Payload) (type : Option Ty) :
      WellFormed .body body → cond.Every Named →
      WellFormed .statement (mk .doWhile [body, cond] payload type)
  | switch {tag : Node} {cases : List Node} {last : Option Node} (payload : Option Payload)
      (type : Option Ty) : tag.Every Named → (∀ n ∈ cases, WellFormed .case n) →
      (∀ n ∈ last, WellFormed .defaultCase n) →
      WellFormed .statement (mk .switch (tag :: (cases ++ last.toList)) payload type)
  | case {label : Node} {stmts : List Node} (payload : Option Payload) (type : Option Ty) :
      label.Every Named → (∀ n ∈ stmts, WellFormed .statement n) →
      WellFormed .case (mk .case (label :: stmts) payload type)
  | defaultCase {stmts : List Node} (payload : Option Payload) (type : Option Ty) :
      (∀ n ∈ stmts, WellFormed .statement n) →
      WellFormed .defaultCase (mk .defaultCase stmts payload type)

end Node

namespace Read

/-! ## What is read -/

/-- The statement is read as its outline, wherever it stands. -/
def RecoversStatement (n : Node) : Prop :=
  ∀ indent text, Print.core indent n = .ok text → ∃ row below,
    (Layout.of n.op).around indent text = lineBreak indent ++ (row ++ below) ∧
    '\n' ∉ row ∧ EndsRow below ∧
    ∀ rest, EndsRow rest →
      Settles (fun fuel => stmt fuel indent row (below ++ rest)) (n.outline, rest)

/-- The block is read as its outline after its opening brace, whatever follows. -/
def RecoversBody (n : Node) : Prop :=
  ∀ indent text, Print.core indent n = .ok text → ∃ below,
    text = '\x7b' :: '\n' :: below ∧
    ∀ rest, Settles (fun fuel => block fuel indent ('\n' :: below ++ rest)) (n.outline, rest)

/-- The case is read as its outline, up to a row that is not deeper. -/
def RecoversClause (n : Node) : Prop :=
  ∀ indent ns text, Print.cases indent false (n :: ns) = .ok text → ∃ c row below tail,
    Print.cases indent false ns = .ok tail ∧
    text = lineBreak indent ++ (c :: row ++ (below ++ tail)) ∧
    c ≠ ' ' ∧ '\n' ∉ c :: row ∧ EndsRow below ∧
    ∀ rest, Shallow (indent + 1) rest →
      Settles (fun fuel => clause fuel indent (c :: row) (below ++ rest)) (n.outline, rest)

/-- What is read of a node in its role. -/
def Recovers (role : Node.Role) (n : Node) : Prop :=
  match role with
  | .statement => RecoversStatement n
  | .body => RecoversBody n
  | .case | .defaultCase => RecoversClause n

/-! ## Lists -/

section Lists

variable {indent : Nat} {ns : List Node} {text rest : List Char}

/-- A list of statements is read up to a row that is less deep. -/
theorem lines_recovered (hns : ∀ n ∈ ns, RecoversStatement n)
    (h : Print.lines indent ns = .ok text) : EndsRow text ∧ ∀ rest, Shallow indent rest →
      Settles (fun fuel => stmts fuel indent (text ++ rest)) (Node.outlines ns, rest) := by
  induction ns generalizing text with
  | nil =>
      obtain rfl := Except.ok.inj h
      refine ⟨.nil, fun rest hrest => .of_succ ?_⟩
      simp only [stmts, List.nil_append, hrest.2]
      exact .pure _
  | cons n ns ih =>
      rw [Print.lines] at h
      obtain ⟨x, hx, h⟩ := Print.ok_of_bind h
      obtain ⟨tail, htail, h⟩ := Print.ok_of_bind h
      obtain rfl := Except.ok.inj h
      obtain ⟨row, below, heq, hrow, hbelow, hread⟩ := hns n List.mem_cons_self indent x hx
      obtain ⟨hends, htail⟩ := ih (fun m hm => hns m (List.mem_cons_of_mem n hm)) htail
      rw [heq]
      refine ⟨.append .lineBreak hends, fun rest hrest => .of_succ ?_⟩
      -- The first statement is read up to the row of the next one, the others up to the end.
      have hrest' : EndsRow (tail ++ rest) := hends.append hrest.1
      have hbelow' : EndsRow (below ++ (tail ++ rest)) := hbelow.append hrest'
      simp only [stmts, List.append_assoc, isPrefixOf?_append, rowOf_append hrow hbelow',
        belowRow_append hrow hbelow', Node.outlines]
      exact (hread _ hrest').bind ((htail rest hrest).bind (.pure _))

/-- The cases of a switch are read up to a row that is less deep, and each of them begins one. -/
theorem clauses_recovered (hns : ∀ n ∈ ns, RecoversClause n)
    (h : Print.cases indent false ns = .ok text) : ∀ rest, Shallow indent rest →
      Shallow (indent + 1) (text ++ rest) ∧
      Settles (fun fuel => clauses fuel indent (text ++ rest)) (Node.outlines ns, rest) := by
  induction ns generalizing text with
  | nil =>
      obtain rfl := Except.ok.inj h
      refine fun rest hrest => ⟨hrest.succ, .of_succ ?_⟩
      simp only [clauses, List.nil_append, hrest.2]
      exact .pure _
  | cons n ns ih =>
      obtain ⟨c, row, below, tail, htail, rfl, hc, hrow, hbelow, hread⟩ :=
        hns n List.mem_cons_self indent ns text h
      intro rest hrest
      obtain ⟨hshallow, htail⟩ := ih (fun m hm => hns m (List.mem_cons_of_mem n hm)) htail rest hrest
      have hbelow' : EndsRow (below ++ (tail ++ rest)) := hbelow.append hshallow.1
      rw [List.append_assoc, List.append_assoc, List.append_assoc]
      refine ⟨.lineBreak hc, .of_succ ?_⟩
      simp only [clauses, isPrefixOf?_append, rowOf_append hrow hbelow',
        belowRow_append hrow hbelow', Node.outlines]
      exact (hread _ hshallow).bind (htail.bind (.pure _))

end Lists

/-! ## Statements of one row -/

section OneRow

variable {n x : Node} {values : List Node} {payload : Option Payload} {type : Option Ty}

/-- A simple statement is recovered if it is read from its row. -/
theorem recovers_row (hlayout : Layout.of n.op = .simple)
    (h : ∀ indent text, Print.core indent n = .ok text → '\n' ∉ text ∧
      ∀ fuel rest, stmt (fuel + 1) indent (text ++ [';']) rest = some (n.outline, rest)) :
    RecoversStatement n := by
  intro indent text htext
  obtain ⟨hrow, hread⟩ := h indent text htext
  refine ⟨text ++ [';'], [], ?_, ?_, .nil, fun rest _ => .of_succ ?_⟩
  · rw [hlayout, List.append_nil]
    exact List.append_assoc _ _ _
  · exact fun hmem => (List.mem_append.1 hmem).elim hrow (by decide)
  · simp only [List.nil_append, hread]
    exact .pure _

/-- A jump is its word. -/
theorem recovers_jump {op : Op} (hop : op ∈ [.breakJump, .continueJump, .returnVoid]) :
    RecoversStatement (.mk op [] payload type) := by
  simp only [List.mem_cons, List.not_mem_nil, or_false] at hop
  rcases hop with rfl | rfl | rfl
  all_goals
    refine recovers_row rfl fun indent text h => ?_
    obtain rfl := Except.ok.inj h
    refine ⟨by decide, fun fuel rest => ?_⟩
    rw [stmt]
    rfl

/-- A return of a value has a blank after its word, and so differs from one of nothing. -/
theorem recovers_returnValue (hx : x.Every Node.Named) :
    RecoversStatement (.mk .returnValue [x] payload type) := by
  refine recovers_row rfl fun indent text h => ?_
  obtain ⟨value, hvalue, h⟩ := Print.ok_of_bind h
  obtain rfl := Except.ok.inj h
  have hvalue : Print.expr x = .ok value := hvalue
  refine ⟨List.not_mem_append (by decide) (hx.newline_notMem hvalue), fun fuel rest => ?_⟩
  rw [List.append_assoc]
  have hword : statement? ("return ".toList ++ (value ++ [';'])) = some .returnValue := rfl
  have hvoid : "return ".toList ++ (value ++ [';']) ≠ "return;".toList := by
    intro heq
    have hend : some ' ' = some ';' := congrArg (·[6]?) heq
    exact absurd hend (by decide)
  have houtline : (Node.mk .returnValue [x] payload type).outline =
      .statement .returnValue [.ok value] [] := by
    simp only [Node.outline, Node.outlines, hvalue]
  simp only [stmt, hword, if_neg hvoid, between?_append, houtline]
  rfl

/-- The values of an output are one text. -/
theorem recovers_echo (hvalues : ∀ x ∈ values, x.Every Node.Named) :
    RecoversStatement (.mk .echo values payload type) := by
  refine recovers_row rfl fun indent text h => ?_
  obtain ⟨list, hlist, h⟩ := Print.ok_of_bind h
  obtain rfl := Except.ok.inj h
  have hlist : Print.commaList (Print.exprEach values) = .ok list := hlist
  refine ⟨List.not_mem_append (by decide) ?_, fun fuel rest => ?_⟩
  · rw [Print.exprEach_eq_map] at hlist
    have hlegible : Legible list := by
      refine Print.commaList_forall (fun _ hd => hd) (fun y hy => ?_) hlist
      obtain ⟨x, hx, hy⟩ := List.mem_map.1 hy
      exact (hvalues x hx).legible hy
    exact fun hmem => absurd (hlegible _ hmem) (by decide)
  · rw [List.append_assoc]
    have hword : statement? ("echo ".toList ++ (list ++ [';'])) = some .echo := rfl
    have houtline : (Node.mk .echo values payload type).outline =
        .statement .echo [.ok list] [] := by
      simp only [Node.outline, hlist]
    simp only [stmt, hword, between?_append, houtline]
    rfl

/-- An expression statement begins with no word of another statement, and ends in a semicolon, so it
is no block either. -/
theorem recovers_expression (hop : n.op ∈ [.assign, .assignModify, .call, .methodCall])
    (hn : n.Every Node.Named) : RecoversStatement n := by
  have hcases : Layout.of n.op = .simple ∧ (∀ indent, Print.core indent n = Print.expr n) ∧
      n.outline = .expression (Print.expr n) := by
    obtain ⟨op, args, payload, type⟩ := n
    simp only [Node.op, List.mem_cons, List.not_mem_nil, or_false] at hop
    rcases hop with rfl | rfl | rfl | rfl
    all_goals exact ⟨rfl, fun _ => rfl, rfl⟩
  obtain ⟨hlayout, hcore, houtline⟩ := hcases
  refine recovers_row hlayout fun indent text h => ?_
  rw [hcore] at h
  refine ⟨hn.newline_notMem h, fun fuel rest => ?_⟩
  have hword : statement? (text ++ [';']) = none := by
    rw [statement?_append]
    · exact hn.begins_none h
    · exact fun c hc => Option.some.inj hc ▸ by decide
  have hbrace : text ++ [';'] ≠ ['\x7b'] := by
    intro heq
    have hend := congrArg List.getLast? heq
    rw [List.getLast?_concat] at hend
    exact absurd hend (by decide)
  have hread : between? [] [';'] (text ++ [';']) = some text := between?_append
  simp only [stmt, hword, if_neg hbrace, hread, houtline, h]
  rfl

end OneRow

/-! ## Statements with bodies -/

section Bodies

variable {cond body otherwise tag label : Node} {ns : List Node} {payload : Option Payload}
  {type : Option Ty} {indent : Nat} {word below x y : List Char}

/-- The first row of a condition or loop, and its body. -/
theorem around_head {op : Op} (hlayout : Layout.of op = .block) :
    (Layout.of op).around indent (word ++ x ++ ") ".toList ++ '\x7b' :: below) =
      lineBreak indent ++ ((word ++ (x ++ ") \x7b".toList)) ++ below) := by
  have hopen : ") \x7b".toList = ") ".toList ++ ['\x7b'] := rfl
  rw [hlayout, hopen]
  simp [Layout.around, Layout.block]

theorem newline_notMem_head (hword : '\n' ∉ word) (hx : '\n' ∉ x) :
    '\n' ∉ word ++ (x ++ ") \x7b".toList) :=
  List.not_mem_append hword (List.not_mem_append hx (by decide))

/-- A block ends at the first row that is not deeper than it. -/
theorem recovers_body (hns : ∀ n ∈ ns, RecoversStatement n) :
    RecoversBody (.mk .block ns payload type) := by
  intro indent text h
  obtain ⟨x, hx, h⟩ := Print.ok_of_bind h
  obtain rfl := Except.ok.inj h
  obtain ⟨hends, hread⟩ := lines_recovered hns hx
  obtain ⟨below, hbelow⟩ : ∃ below, x ++ (lineBreak indent ++ ['\x7d']) = '\n' :: below :=
    hends.exists_eq_cons
  refine ⟨below, by rw [List.append_assoc, hbelow], fun rest => .of_succ ?_⟩
  rw [← hbelow, List.append_assoc, List.append_assoc]
  simp only [block, Node.outline]
  refine (hread (lineBreak indent ++ (['\x7d'] ++ rest)) (.lineBreak (by decide))).bind ?_
  simp only [isPrefixOf?_closing]
  exact .pure _

/-- A block in a list. -/
theorem recovers_block {n : Node} (hop : n.op = .block) (h : RecoversBody n) :
    RecoversStatement n := by
  intro indent text htext
  obtain ⟨below, rfl, hread⟩ := h indent text htext
  refine ⟨['\x7b'], '\n' :: below, ?_, by decide, .cons, fun rest _ => .of_succ ?_⟩
  · rw [hop]
    exact List.append_nil _
  · have hword : statement? ['\x7b'] = none := rfl
    simp only [stmt, hword]
    exact hread rest

/-- A body after its condition. -/
theorem recovers_headed {op : Op} (hhead : Print.Heads op word) (hcond : cond.Every Node.Named)
    (hbody : RecoversBody body) : RecoversStatement (.mk op [cond, body] payload type) := by
  intro indent text h
  obtain ⟨x, y, hx, hy, rfl⟩ := hhead.text_eq h
  obtain ⟨below, rfl, hread⟩ := hbody indent y hy
  refine ⟨_, _, around_head hhead.layout_eq,
    newline_notMem_head hhead.newline_notMem (hcond.newline_notMem hx), .cons,
    fun rest hrest => .of_succ ?_⟩
  cases hhead with
  -- The row ends with the body, so what follows is no alternative.
  | ifThen =>
      have hword : statement? ("if (".toList ++ (x ++ ") \x7b".toList)) = some .ifThen := rfl
      have helse : " else \x7b".toList.isPrefixOf? rest = none :=
        isPrefixOf?_of_endsRow (by decide) hrest
      simp only [stmt, hword, between?_append, Node.outline, Node.outlines, hx]
      refine (hread rest).bind ?_
      simp only [helse]
      exact .pure _
  | whileLoop =>
      have hword : statement? ("while (".toList ++ (x ++ ") \x7b".toList)) = some .whileLoop := rfl
      simp only [stmt, hword, between?_append, Node.outline, Node.outlines, hx]
      exact (hread rest).bind (.pure _)

/-- An alternative stands on the row where the body of its condition ends. -/
theorem recovers_ifElse (hcond : cond.Every Node.Named) (hbody : RecoversBody body)
    (hother : RecoversBody otherwise) :
    RecoversStatement (.mk .ifElse [cond, body, otherwise] payload type) := by
  intro indent text h
  obtain ⟨x, hx, h⟩ := Print.ok_of_bind h
  obtain ⟨y, hy, h⟩ := Print.ok_of_bind h
  obtain ⟨z, hz, h⟩ := Print.ok_of_bind h
  obtain rfl := Except.ok.inj h
  have hx : Print.expr cond = .ok x := hx
  obtain ⟨below, rfl, hread⟩ := hbody indent y hy
  obtain ⟨below', rfl, hread'⟩ := hother indent z hz
  refine ⟨"if (".toList ++ (x ++ ") \x7b".toList),
    '\n' :: below ++ (" else \x7b".toList ++ '\n' :: below'), ?_,
    newline_notMem_head (by decide) (hcond.newline_notMem hx), .cons,
    fun rest hrest => .of_succ ?_⟩
  · have hthen : ") \x7b".toList = ") ".toList ++ ['\x7b'] := rfl
    have helse : " else \x7b".toList = " else ".toList ++ ['\x7b'] := rfl
    rw [hthen, helse]
    simp [Layout.around, Layout.of, Layout.block, Node.op]
  · have hword : statement? ("if (".toList ++ (x ++ ") \x7b".toList)) = some .ifThen := rfl
    simp only [stmt, hword, between?_append, Node.outline, Node.outlines, hx, List.append_assoc]
    refine (hread _).bind ?_
    simp only [isPrefixOf?_append]
    exact (hread' rest).bind (.pure _)

theorem recovers_doWhile (hbody : RecoversBody body) (hcond : cond.Every Node.Named) :
    RecoversStatement (.mk .doWhile [body, cond] payload type) := by
  intro indent text h
  obtain ⟨y, hy, h⟩ := Print.ok_of_bind h
  obtain ⟨x, hx, h⟩ := Print.ok_of_bind h
  obtain rfl := Except.ok.inj h
  have hx : Print.expr cond = .ok x := hx
  obtain ⟨below, rfl, hread⟩ := hbody indent y hy
  -- The condition stands on the row of the closing brace.
  have hrow : '\n' ∉ " while (".toList ++ (x ++ ");".toList) :=
    List.not_mem_append (by decide)
      (List.not_mem_append (hcond.newline_notMem hx) (by decide))
  refine ⟨"do \x7b".toList, '\n' :: below ++ (" while (".toList ++ (x ++ ");".toList)), ?_,
    by decide, .cons, fun rest hrest => .of_succ ?_⟩
  · have hopen : "do \x7b".toList = "do ".toList ++ ['\x7b'] := rfl
    have hclose : ");".toList = [')', ';'] := rfl
    rw [hopen, hclose]
    simp [Layout.around, Layout.of, Layout.simple, Node.op]
  · have hword : statement? "do \x7b".toList = some .doWhile := rfl
    simp only [stmt, hword, Node.outline, hx, List.append_assoc (_ :: _)]
    refine (hread _).bind ?_
    simp only [rowOf_append hrow hrest, belowRow_append hrow hrest, between?_append]
    exact .pure _

/-- A switch ends at the first row that is less deep than its cases. -/
theorem recovers_switch (htag : tag.Every Node.Named) (hns : ∀ n ∈ ns, RecoversClause n) :
    RecoversStatement (.mk .switch (tag :: ns) payload type) := by
  intro indent text h
  obtain ⟨x, hx, h⟩ := Print.ok_of_bind h
  obtain ⟨y, hy, h⟩ := Print.ok_of_bind h
  obtain rfl := Except.ok.inj h
  have hx : Print.expr tag = .ok x := hx
  have hy : Print.cases (indent + 1) false ns = .ok y := by
    obtain ⟨op, args, payload, type⟩ := tag
    exact hy
  have hread := clauses_recovered hns hy
  have hends : EndsRow (y ++ (lineBreak indent ++ ['\x7d'])) :=
    (hread _ (.lineBreak (by decide))).1.1
  refine ⟨"switch (".toList ++ (x ++ ") \x7b".toList), y ++ (lineBreak indent ++ ['\x7d']), ?_,
    newline_notMem_head (by decide) (htag.newline_notMem hx), hends,
    fun rest hrest => .of_succ ?_⟩
  · simp [Layout.around, Layout.of, Layout.block, Node.op]
  · have hword : statement? ("switch (".toList ++ (x ++ ") \x7b".toList)) = some .switch := rfl
    simp only [stmt, hword, between?_append, Node.outline, hx, List.append_assoc]
    refine (hread (lineBreak indent ++ (['\x7d'] ++ rest)) (.lineBreak (by decide))).2.bind ?_
    simp only [isPrefixOf?_closing]
    exact .pure _

theorem recovers_case (hlabel : label.Every Node.Named) (hns : ∀ n ∈ ns, RecoversStatement n) :
    RecoversClause (.mk .case (label :: ns) payload type) := by
  intro indent cases text h
  rw [Print.cases, if_neg (by decide)] at h
  obtain ⟨x, hx, h⟩ := Print.ok_of_bind h
  obtain ⟨y, hy, h⟩ := Print.ok_of_bind h
  obtain ⟨head, hhead, h⟩ := Print.ok_of_bind h
  obtain ⟨tail, htail, h⟩ := Print.ok_of_bind h
  obtain rfl := Except.ok.inj hhead
  obtain rfl := Except.ok.inj h
  obtain ⟨hends, hread⟩ := lines_recovered hns hy
  refine ⟨'c', "ase ".toList ++ (x ++ [':']), y, tail, htail, ?_, by decide, ?_, hends,
    fun rest hrest => .of_succ ?_⟩
  · have hword : "case ".toList = 'c' :: "ase ".toList := rfl
    rw [hword]
    simp
  · have hrow : '\n' ∉ "case ".toList ++ (x ++ [':']) :=
      List.not_mem_append (by decide)
        (List.not_mem_append (hlabel.newline_notMem hx) (by decide))
    exact hrow
  · have hlabel : between? "case ".toList [':'] ('c' :: ("ase ".toList ++ (x ++ [':']))) = some x :=
      between?_append
    simp only [clause, Node.outline, hx]
    refine (hread rest hrest).bind ?_
    simp only [hlabel]
    exact .pure _

theorem recovers_defaultCase (hns : ∀ n ∈ ns, RecoversStatement n) :
    RecoversClause (.mk .defaultCase ns payload type) := by
  intro indent cases text h
  rw [Print.cases, if_neg (by decide)] at h
  obtain ⟨y, hy, h⟩ := Print.ok_of_bind h
  obtain ⟨head, hhead, h⟩ := Print.ok_of_bind h
  obtain ⟨tail, htail, h⟩ := Print.ok_of_bind h
  obtain rfl := Except.ok.inj hhead
  obtain rfl := Except.ok.inj h
  obtain ⟨hends, hread⟩ := lines_recovered hns hy
  refine ⟨'d', "efault:".toList, y, tail, htail, ?_, by decide, by decide, hends,
    fun rest hrest => .of_succ ?_⟩
  · have hword : "default:".toList = 'd' :: "efault:".toList := rfl
    rw [hword]
    simp
  · have hlabel : between? "case ".toList [':'] ('d' :: "efault:".toList) = none := rfl
    simp only [clause, Node.outline]
    refine (hread rest hrest).bind ?_
    simp only [hlabel]
    exact .pure _

end Bodies

end Read

namespace Node

open Read (Recovers)

/-- A well-formed statement is read as its outline. -/
theorem WellFormed.recovers {role : Role} {n : Node} (h : WellFormed role n) : Recovers role n := by
  induction h with
  | expression hop hn => exact Read.recovers_expression hop hn
  | jump _ _ hop => exact Read.recovers_jump hop
  | returnValue _ _ hx => exact Read.recovers_returnValue hx
  | echo _ _ _ hvalues => exact Read.recovers_echo hvalues
  | body _ _ _ ih => exact Read.recovers_body ih
  | block hbody ih =>
      cases hbody
      exact Read.recovers_block rfl ih
  | ifThen _ _ hcond _ ih => exact Read.recovers_headed .ifThen hcond ih
  | ifElse _ _ hcond _ _ ih ih' => exact Read.recovers_ifElse hcond ih ih'
  | whileLoop _ _ hcond _ ih => exact Read.recovers_headed .whileLoop hcond ih
  | doWhile _ _ _ hcond ih => exact Read.recovers_doWhile ih hcond
  | @switch tag cases last _ _ htag _ _ ihcases ihlast =>
      refine Read.recovers_switch htag fun n hn => ?_
      rcases List.mem_append.1 hn with hn | hn
      · exact ihcases n hn
      · exact ihlast n (Option.mem_toList.1 hn)
  | case _ _ hlabel _ ih => exact Read.recovers_case hlabel ih
  | defaultCase _ _ _ ih => exact Read.recovers_defaultCase ih

end Node

/-! ## Texts -/

/-- The layout of statements is unambiguous. Lists of well-formed statements with the same text at
the same depth have the same outlines: the same statements with the same texts of their conditions,
tags, labels, values and expressions. And an emitter writes every statement as `Print.stmt` says, at
the same depth before and after. -/
theorem Print.lines_unambiguous :
    (∀ {indent : Nat} {ns ms : List Node} {text : List Char},
      (∀ n ∈ ns, n.WellFormed .statement) → (∀ m ∈ ms, m.WellFormed .statement) →
      lines indent ns = .ok text → lines indent ms = .ok text →
      ns.map Node.outline = ms.map Node.outline) ∧
    ∀ (n : Node) (layout : Layout) (e : Emitter), (Emitter.stmt n layout).run e =
      (stmt e.indent n layout).map fun text => ((), { e with output := e.output ++ text }) := by
  refine ⟨fun hns hms h h' => ?_, Emitter.stmt_writes⟩
  have hread := (Read.lines_recovered (fun n hn => (hns n hn).recovers) h).2 [] .nil
  have hread' := (Read.lines_recovered (fun m hm => (hms m hm).recovers) h').2 [] .nil
  have heq := (Prod.mk.inj (hread.unique hread')).1
  rwa [Node.outlines_eq_map, Node.outlines_eq_map] at heq

/-- The same text of two trees: `$a = $b = null` with the assignments nested to the right, and to the
left, in the body of a condition. -/
theorem Print.lines_unambiguous_nested :
    let a : Node := .var "a" .mixed
    let b : Node := .var "b" .mixed
    let ns : List Node := [.ifThen a (.block [.assign a (.assign b .null)])]
    let ms : List Node := [.ifThen a (.block [.assign (.assign a b) .null])]
    let text := "\nif ($a) \x7b\n  $a = $b = null;\n\x7d".toList
    (lines 0 ns = .ok text ∧ lines 0 ms = .ok text ∧ ns ≠ ms) ∧
      ns.map Node.outline = ms.map Node.outline := by
  intro a b ns ms text
  have hname : ∀ s : String, Read.isIdentifier s = true → (Node.var s .mixed).Every Node.Named :=
    fun s hs => .leaf fun t ht => by
      obtain rfl := Option.some.inj ht
      exact ⟨hs, fun hop => Op.noConfusion hop⟩
  have ha : a.Every Node.Named := hname "a" (by decide)
  have hb : b.Every Node.Named := hname "b" (by decide)
  have hnull : Node.null.Every Node.Named := .leaf (.of_none rfl)
  have hwell : ∀ x : Node, x.op ∈ [.assign, .assignModify, .call, .methodCall] →
      x.Every Node.Named → ∀ n ∈ [Node.ifThen a (.block [x])], n.WellFormed .statement := by
    intro x hop hx n hn
    obtain rfl := List.mem_singleton.1 hn
    refine .ifThen _ _ ha (.body _ _ fun n hn => ?_)
    obtain rfl := List.mem_singleton.1 hn
    exact .expression hop hx
  have hns : lines 0 ns = .ok text := rfl
  have hms : lines 0 ms = .ok text := rfl
  have hne : ns ≠ ms := by
    simp [ns, ms, a, b, Node.ifThen, Node.block, Node.ofArgs, Node.assign, Node.var]
  refine ⟨⟨hns, hms, hne⟩, ?_⟩
  refine Print.lines_unambiguous.1 (hwell _ (by decide) ?_) (hwell _ (by decide) ?_) hns hms
  · exact .two (.of_none rfl) ha (.two (.of_none rfl) hb hnull)
  · exact .two (.of_none rfl) (.two (.of_none rfl) ha hb) hnull

end TypedPhp
