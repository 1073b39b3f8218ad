import TypedPhp.Print.Stmt
import TypedPhp.Proofs.Syntax.Subterms

set_option autoImplicit false

/-!
# Statements written step by step

The text of a statement can be written from left to right by an emitter that holds the depth of
the next line and the text so far, and changes the depth around the lines of a block. What it
writes, and whether it stops with a fault, is what `Print.stmt` says for the depth at which it
begins, and its depth is the same at the end (`Emitter.stmt_writes`).
-/

namespace TypedPhp

open Print (Written Layout lineBreak)

/-- The depth of the next line and the text so far. -/
structure Emitter where
  indent : Nat
  output : List Char

namespace Emitter

/-! ## Steps -/

/-- A step of an emitter, or the fault that stopped it. -/
abbrev Emit := StateT Emitter (Except Fault) Unit

/-- Goes on in the same line. -/
def inline (text : List Char) : Emit := modify fun e => { e with output := e.output ++ text }

/-- Begins a line. -/
def line (text : List Char) : Emit := do
  let e ← get
  inline (lineBreak e.indent ++ text)

def enterBlock : Emit := modify fun e => { e with indent := e.indent + 1 }

def exitBlock : Emit := modify fun e => { e with indent := e.indent - 1 }

/-- Steps whose lines are one level deeper. -/
def nested (m : Emit) : Emit := do
  enterBlock
  m
  exitBlock

/-- What stands before a statement. -/
def opening (layout : Layout) : Emit := if layout.newline then line [] else pure ()

/-- What stands after a statement. -/
def closing (layout : Layout) : Emit := if layout.semicolon then inline [';'] else pure ()

/-- Steps with what surrounds them. -/
def around (layout : Layout) (m : Emit) : Emit := do
  opening layout
  m
  closing layout

/-- A text in the same line, if it is written. -/
def written (x : Written) : Emit := do
  let text ← x
  inline text

mutual

/-- A statement with a layout. -/
def stmt : Node → Layout → Emit
  | .mk op args payload type, layout => around layout <|
    match op with
    | .block => do
      inline ['\x7b']
      nested (each args)
      line ['\x7d']
    | .ifThen => do
      inline "if (".toList
      written (Print.exprAt args 0)
      inline ") ".toList
      bodyAt args.length 1 args 1
    | .ifElse => do
      inline "if (".toList
      written (Print.exprAt args 0)
      inline ") ".toList
      bodyAt args.length 1 args 1
      inline " else ".toList
      bodyAt args.length 2 args 2
    | .whileLoop => do
      inline "while (".toList
      written (Print.exprAt args 0)
      inline ") ".toList
      bodyAt args.length 1 args 1
    | .doWhile => do
      inline "do ".toList
      bodyAt args.length 0 args 0
      inline " while (".toList
      written (Print.exprAt args 1)
      inline [')']
    | .switch => do
      inline "switch (".toList
      written (Print.exprAt args 0)
      inline ") \x7b".toList
      nested (cases true args)
      line ['\x7d']
    | .returnValue => do
      inline "return ".toList
      written (Print.exprAt args 0)
    | .returnVoid => inline "return".toList
    | .breakJump => inline "break".toList
    | .continueJump => inline "continue".toList
    | .echo => do
      inline "echo ".toList
      written (Print.commaList (Print.exprEach args))
    | .case | .defaultCase => throw (.outsideSwitch op)
    | _ => written (Print.expr (.mk op args payload type))

/-- The statement `left` places into a list, in the line of its head; `length` and `index` tell the
whole list's length and the place in it. -/
def bodyAt (length index : Nat) : List Node → (left : Nat) → Emit
  | [], _ => throw (.indexOutOfBounds length index)
  | n :: _, 0 => stmt n ⟨false, false⟩
  | _ :: ns, left + 1 => bodyAt length index ns left

/-- Statements on lines of their own. -/
def each : List Node → Emit
  | [] => pure ()
  | n :: ns => do
    stmt n (Layout.of n.op)
    each ns

/-- The cases of a switch; the tag at the front of the children is skipped. -/
def cases (atTag : Bool) : List Node → Emit
  | [] => pure ()
  | n :: ns =>
    if atTag then cases false ns
    else do
      switchCase n
      cases false ns

/-- A case or the default of a switch. -/
def switchCase : Node → Emit
  | .mk op args _ _ =>
    match op, args with
    | .case, [] => throw (.indexOutOfBounds 0 0)
    | .case, label :: body => do
      line "case ".toList
      written (Print.expr label)
      inline [':']
      nested (each body)
    | .defaultCase, body => do
      line "default:".toList
      nested (each body)
    | _, _ => throw (.insideSwitch op)

end

/-! ## What is written -/

/-- Steps write a text that depends on the depth only, and leave the depth as it was. -/
def Writes (m : Emit) (text : Nat → Written) : Prop :=
  ∀ e : Emitter, m.run e = (text e.indent).map fun x => ((), { e with output := e.output ++ x })

section Steps

variable {m k : Emit} {x y : Nat → Written}

namespace Writes

theorem congr (h : Writes m x) (heq : ∀ indent, x indent = y indent) : Writes m y :=
  fun e => (h e).trans (by rw [heq])

theorem inline (text : List Char) : Writes (inline text) fun _ => pure text := fun _ => rfl

theorem line (text : List Char) :
    Writes (line text) fun indent => pure (lineBreak indent ++ text) := fun _ => rfl

theorem nothing : Writes (pure ()) fun _ => pure [] := by
  intro e
  show Except.ok ((), e) = Except.ok ((), { e with output := e.output ++ [] })
  rw [List.append_nil]

theorem throw (fault : Fault) : Writes (throw fault) fun _ => throw fault := fun _ => rfl

theorem written (text : Written) : Writes (written text) fun _ => text := by
  intro e
  cases text with
  | error fault => rfl
  | ok text => rfl

/-- Steps after steps. -/
theorem seq (hm : Writes m x) (hk : Writes k y) : Writes (do m; k) fun indent => do
    let head ← x indent
    let rest ← y indent
    return head ++ rest := by
  intro e
  show (m.run e >>= fun p => k.run p.2) = (do
    let head ← x e.indent
    let rest ← y e.indent
    return head ++ rest : Written).map fun z => ((), { e with output := e.output ++ z })
  rw [hm e]
  -- The first fault ends both sides; without one, both write the two texts in their order.
  cases x e.indent with
  | error fault => rfl
  | ok head =>
      refine (hk { e with output := e.output ++ head }).trans ?_
      show (y e.indent).map (fun z => ((), { e with output := e.output ++ head ++ z })) = (do
        let rest ← y e.indent
        return head ++ rest : Written).map fun z => ((), { e with output := e.output ++ z })
      cases y e.indent with
      | error fault => rfl
      | ok rest =>
          have hassoc : e.output ++ head ++ rest = e.output ++ (head ++ rest) :=
            List.append_assoc _ _ _
          exact congrArg (fun z => Except.ok ((), { e with output := z })) hassoc

/-- The depth is the same after the lines of a block. -/
theorem nested (hm : Writes m x) : Writes (nested m) fun indent => x (indent + 1) := by
  intro e
  show (m.run { e with indent := e.indent + 1 } >>= fun p => exitBlock.run p.2) =
    (x (e.indent + 1)).map fun z => ((), { e with output := e.output ++ z })
  rw [hm]
  cases x (e.indent + 1) with
  | error fault => rfl
  | ok text => rfl

theorem opening (layout : Layout) : Writes (opening layout) fun indent =>
    pure (if layout.newline then lineBreak indent else []) := by
  unfold Emitter.opening
  split
  · exact (line []).congr fun indent => congrArg pure (List.append_nil _)
  · exact nothing

theorem closing (layout : Layout) :
    Writes (closing layout) fun _ => pure (if layout.semicolon then [';'] else []) := by
  unfold Emitter.closing
  split
  · exact inline [';']
  · exact nothing

theorem around (layout : Layout) (hm : Writes m x) : Writes (around layout m) fun indent => do
    let text ← x indent
    return layout.around indent text := by
  refine ((opening layout).seq (hm.seq (closing layout))).congr fun indent => ?_
  simp only [pure_bind, bind_assoc, Layout.around, List.append_assoc]

end Writes

end Steps

/-! ## Lists -/

section Lists

variable {ns : List Node}

/-- The statement is written as `Print.stmt` says. -/
def Faithful (n : Node) : Prop :=
  ∀ layout, Writes (stmt n layout) fun indent => Print.stmt indent n layout

theorem each_writes (h : ∀ n ∈ ns, Faithful n) :
    Writes (each ns) fun indent => Print.lines indent ns := by
  induction ns with
  | nil => exact .nothing
  | cons n ns ih =>
      have hrest := ih fun m hm => h m (List.mem_cons_of_mem n hm)
      refine ((h n List.mem_cons_self _).seq hrest).congr fun indent => ?_
      simp only [Print.stmt, Print.lines, bind_assoc, pure_bind]

theorem bodyAt_writes {length index left : Nat} (h : ∀ n ∈ ns, Faithful n) :
    Writes (bodyAt length index ns left) fun indent =>
      Print.coreAt indent length index ns left := by
  induction ns generalizing left with
  | nil => exact .throw _
  | cons n ns ih =>
      cases left with
      | zero =>
          refine (h n List.mem_cons_self ⟨false, false⟩).congr fun indent => ?_
          rw [Print.coreAt, Print.stmt]
          cases Print.core indent n with
          | error fault => rfl
          | ok text => exact congrArg Except.ok (List.append_nil _)
      | succ left => exact ih fun m hm => h m (List.mem_cons_of_mem n hm)

theorem cases_writes {atTag : Bool} (h : ∀ n ∈ ns, ∀ m ∈ n.args, Faithful m) :
    Writes (cases atTag ns) fun indent => Print.cases indent atTag ns := by
  induction ns generalizing atTag with
  | nil => exact .nothing
  | cons n ns ih =>
      have hrest : ∀ {atTag : Bool}, Writes (cases atTag ns) fun indent =>
          Print.cases indent atTag ns := ih fun m hm => h m (List.mem_cons_of_mem n hm)
      have hargs := h n List.mem_cons_self
      obtain ⟨op, args, payload, type⟩ := n
      cases atTag with
      | true => exact hrest
      | false =>
          cases op with
          | case =>
              cases args with
              | nil => exact (Writes.throw _).seq hrest
              | cons label body =>
                  have hbody := each_writes fun m hm => hargs m (List.mem_cons_of_mem label hm)
                  refine .congr (((Writes.line _).seq <| (Writes.written _).seq <|
                    (Writes.inline _).seq hbody.nested).seq hrest) fun indent => ?_
                  simp only [Print.cases, pure_bind, bind_assoc, List.append_assoc,
                    List.singleton_append]
                  rfl
          | defaultCase =>
              have hbody := each_writes hargs
              refine .congr (((Writes.line _).seq hbody.nested).seq hrest) fun indent => ?_
              simp only [Print.cases, pure_bind, bind_assoc, List.append_assoc]
              rfl
          | _ => exact (Writes.throw _).seq hrest

end Lists

/-- A statement is written as `Print.stmt` says, at every depth. -/
theorem stmt_writes (n : Node) : Faithful n := by
  -- A switch writes the statements in its cases, which are two levels below it, so the induction
  -- carries the children along.
  have hboth : Faithful n ∧ ∀ m ∈ n.args, Faithful m := by
    induction n using Node.inductionOn with
    | node op args payload type ih =>
        have hargs : ∀ m ∈ args, Faithful m := fun m hm => (ih m hm).1
        have hinner : ∀ m ∈ args, ∀ k ∈ m.args, Faithful k := fun m hm => (ih m hm).2
        refine ⟨fun layout => ?_, hargs⟩
        have hcore : ∀ {m : Emit},
            Writes m (fun indent => Print.core indent (.mk op args payload type)) →
            Writes (around layout m) fun indent =>
              Print.stmt indent (.mk op args payload type) layout :=
          fun hm => .around layout hm
        cases op with
        | block =>
            refine hcore (.congr ((Writes.inline _).seq <| (each_writes hargs).nested.seq <|
              .line _) fun indent => ?_)
            simp only [Print.core, pure_bind, bind_assoc, List.append_assoc, List.singleton_append]
        | ifThen | whileLoop =>
            refine hcore (.congr ((Writes.inline _).seq <| (Writes.written _).seq <|
              (Writes.inline _).seq <| bodyAt_writes hargs) fun indent => ?_)
            simp only [Print.core, pure_bind, bind_assoc, List.append_assoc]
        | ifElse =>
            refine hcore (.congr ((Writes.inline _).seq <| (Writes.written _).seq <|
              (Writes.inline _).seq <| (bodyAt_writes hargs).seq <| (Writes.inline _).seq <|
              bodyAt_writes hargs) fun indent => ?_)
            simp only [Print.core, pure_bind, bind_assoc, List.append_assoc]
        | doWhile =>
            refine hcore (.congr ((Writes.inline _).seq <| (bodyAt_writes hargs).seq <|
              (Writes.inline _).seq <| (Writes.written _).seq <| .inline _) fun indent => ?_)
            simp only [Print.core, pure_bind, bind_assoc, List.append_assoc]
        | switch =>
            refine hcore (.congr ((Writes.inline _).seq <| (Writes.written _).seq <|
              (Writes.inline _).seq <| (cases_writes hinner).nested.seq <|
              .line _) fun indent => ?_)
            simp only [Print.core, pure_bind, bind_assoc, List.append_assoc]
        | returnValue | echo =>
            refine hcore (.congr ((Writes.inline _).seq <| .written _) fun indent => ?_)
            simp only [Print.core, pure_bind]
        | returnVoid | breakJump | continueJump => exact hcore (.inline _)
        | case | defaultCase => exact hcore (.throw _)
        | _ => exact hcore (.written _)
  exact hboth.1

end Emitter

end TypedPhp
