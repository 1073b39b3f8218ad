import TypedPhp.Generate.Assign
import TypedPhp.Syntax.Constant

set_option autoImplicit false

/-!
# Random statements

A statement is of a kind that is drawn with weights: the closer the depth of statements is to its
limit, the fewer nest others, and at the limit none does. A statement list ends after a jump. The
counter of a loop is not in scope, so its body cannot change how often the loop runs.

Statements nest as long as the depth allows it, so the recursion of `Build.stmt` is on the stack of
calls: where it is used up, the building fails.
-/

namespace TypedPhp

/-- The kinds of statements. -/
inductive StmtKind where
  | declaration
  | block
  | condition
  | assignment
  | dump
  | echo
  | voidCall
  | loop
  | switch
  | breakJump
  | continueJump
  | returnJump
deriving DecidableEq, Repr, Inhabited

namespace StmtKind

/-- The kinds with their weights. Without room, no kind that nests statements has a weight, and
a return needs a block around it. -/
def weights (room : Nat) (isNested : Bool) : List (StmtKind × Nat) :=
  [ (declaration, 4),
    (block, room),
    (condition, 3 * room),
    (assignment, 5),
    (dump, 4),
    (echo, 1),
    (voidCall, 1),
    (loop, 2 * room),
    (switch, room),
    (breakJump, 1),
    (continueJump, 1),
    (returnJump, if isNested then 1 else 0) ]

/-- A kind, with a chance in proportion to its weight; a declaration if the weights are too
large to be summed up. -/
def draw {ρ : Type} [WordSource ρ] (attempts room : Nat) (isNested : Bool) :
    Draw ρ StmtKind := do
  let choices := weights room isNested
  match ← Draw.weighted attempts (choices.map (·.2)) with
  | none => return declaration
  | some i =>
    let (kind, _) ← Draw.lift (elemAt choices i)
    return kind

end StmtKind

namespace Build

variable {ρ : Type} [WordSource ρ]

/-- Whether a statement list ends in a jump. -/
def endsInJump (stmts : List Node) : Bool := (stmts.getLast?.map fun n => n.op.isJump).getD false

/-- Up to `n` times what `one` builds, up to and including the first jump. -/
def repeated (one : Build ρ (List Node)) : (n : Nat) → Build ρ (List Node)
  | 0 => return []
  | n + 1 => do
    let stmts ← one
    if endsInJump stmts then return stmts
    else do
      let rest ← repeated one n
      return stmts ++ rest

/-- A block of what `one` builds. -/
def block (one : Build ρ (List Node)) : Build ρ Node := do
  let stmts ← inFrame <| nested do
    let n ← draw fun env => Draw.range 1 (max env.config.maxBlockStmts 1)
    repeated one n
  return .block stmts

/-- A condition over blocks. -/
def condition (one : Build ρ (List Node)) : Build ρ (List Node) := do
  let cond ← choose .cond
  let body ← block one
  let hasAlternative ← draw fun env => Draw.chance env.config.otherwise
  if hasAlternative then do
    let alternative ← block one
    return [.ifElse cond body alternative]
  else return [.ifThen cond body]

/-- A loop that runs its body a bounded number of times, after the assignment that sets its
counter to zero. -/
def loop (one : Build ρ (List Node)) : Build ρ (List Node) := do
  let counter ← freshCounter
  let limit ← draw fun env => Draw.range 1 env.config.maxLoopIterations
  let counterVar := Node.var counter .int
  let body ← withTarget .loop (block one)
  let checksFirst ← draw fun _ => Draw.chance Draw.half
  let bound := Int64.ofNat limit
  let cond (n : Int64) : Node := .binary .less (.unary .postInc counterVar) (.intLit n)
  return [.assign counterVar (.intLit 0),
    if checksFirst then .ofArgs .whileLoop [cond bound, body]
    else .ofArgs .doWhile [body, cond (bound - 1)]]

/-- The type of a switch: integers or strings, or an enum of them. Floats are left out, because
case labels compare them exactly. -/
def tagType (env : Env) : Draw ρ Ty := do
  match ← Draw.int false 0 3 with
  | 0 => return .int
  | 1 => return .string
  | 2 => Draw.enumType env .int
  | _ => Draw.enumType env .string

/-- The statements of a case: at most two, and mostly a break after them. -/
def caseBody (one : Build ρ (List Node)) : Build ρ (List Node) :=
  inFrame <| nested <| withTarget .switch do
    let n ← draw fun _ => Draw.range 0 2
    let stmts ← repeated one n
    if endsInJump stmts then return stmts
    else do
      let breaks ← draw fun env => Draw.chance env.config.caseBreak
      return if breaks then stmts ++ [.ofArgs .breakJump []] else stmts

/-- Up to `n` cases with labels of a type, none of them a repetition of one in `seen` or of
another. -/
def casesOf (one : Build ρ (List Node)) (t : Ty) :
    (n : Nat) → (seen : List Literal) → Build ρ (List Node)
  | 0, _ => return []
  | n + 1, seen => do
    let label ← draw fun env => Draw.constant env t
    match ← label.constant with
    | none => throw .labelNotLiteral
    | some l =>
      if seen.any (·.same l) then casesOf one t n seen
      else do
        let body ← caseBody one
        let rest ← casesOf one t n (l :: seen)
        return .ofArgs .case (label :: body) :: rest

/-- A switch over an integer or a string. -/
def switch (one : Build ρ (List Node)) : Build ρ (List Node) := do
  let t ← draw tagType
  let tag ← value t
  let n ← draw fun env => Draw.range 1 (max env.config.maxCases 1)
  let cases ← casesOf one t n []
  let hasDefault ← draw fun env => Draw.chance env.config.defaultCase
  let default ←
    if hasDefault then do
      let body ← caseBody one
      pure [Node.ofArgs .defaultCase body]
    else pure []
  return [.ofArgs .switch (tag :: cases ++ default)]

/-- What stands for a jump that has no target: a condition where there is room for its blocks. -/
def jumpSubstitute (one : Build ρ (List Node)) : Build ρ (List Node) := do
  let g ← get
  if g.stmtDepth < g.config.maxStmtDepth then condition one else declaration

/-- A break, if there is something to leave. -/
def breakJump (one : Build ρ (List Node)) : Build ρ (List Node) := do
  match (← get).jumps with
  | _ :: _ => return [.ofArgs .breakJump []]
  | [] => jumpSubstitute one

/-- A continue, if the innermost jump target is a loop. -/
def continueJump (one : Build ρ (List Node)) : Build ρ (List Node) := do
  match (← get).jumps with
  | .loop :: _ => return [.ofArgs .continueJump []]
  | _ => jumpSubstitute one

/-- A statement of a kind, given what builds the statements nested in it. -/
def ofKind (one : Build ρ (List Node)) : StmtKind → Build ρ (List Node)
  | .declaration => declaration
  | .block => do
    let b ← block one
    return [b]
  | .condition => condition one
  | .assignment => assignment
  | .dump => do
    let n ← dump
    return [n]
  | .echo => do
    let n ← echo
    return [n]
  | .voidCall => do
    let n ← voidCall
    return [n]
  | .loop => loop one
  | .switch => switch one
  | .breakJump => breakJump one
  | .continueJump => continueJump one
  | .returnJump => do
    let n ← returnOf (← get).currentResult
    return [n]

/-- One statement, given what builds the nested ones. Its kind depends on the room that is left at
the depth that is reached. -/
def stmtWith (one : Build ρ (List Node)) : Build ρ (List Node) := do
  let g ← get
  let kind ← draw fun env => StmtKind.draw env.attempts g.room (0 < g.stmtDepth)
  ofKind one kind

/-- One statement on a stack that holds so many nested ones. It may take two nodes, or none. -/
def stmt : (stack : Nat) → Build ρ (List Node)
  | 0 => throw .stackOverflow
  | stack + 1 => stmtWith (stmt stack)

/-- A function body on a stack: declarations, statements, and a return of the result if there is
one. -/
def body (stack : Nat) : Build ρ (List Node) := do
  let decls ← draw fun env => Draw.range env.config.varDecls.min env.config.varDecls.max
  let declared ← repeated declaration decls
  let n ← draw fun env => Draw.range env.config.stmts.min env.config.stmts.max
  let stmts ← repeated (stmt stack) n
  let result := (← get).currentResult
  if result.isVoid then return declared ++ stmts
  else do
    let last ← returnOf result
    return declared ++ stmts ++ [last]

end Build

end TypedPhp
