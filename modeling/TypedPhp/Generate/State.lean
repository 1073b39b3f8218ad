import TypedPhp.Generate.Env

set_option autoImplicit false

/-!
# State of the building of a program

What changes while bodies are built: the source of random words, variables and symbols, the
nesting of expressions and statements, the targets of jumps, and the counters of fresh names.
A step is a computation on this state; a draw sees the state as an `Env` and changes the source
only. The depths, frames and jump targets around a step are counted up or pushed before it and
counted down or popped after it.
-/

namespace TypedPhp

/-- What a `break` would leave, or a `continue` repeat. -/
inductive JumpTarget where
  | loop
  | switch
deriving DecidableEq, Repr, Inhabited

/-- The state of the building of a program. -/
structure Generator (ρ : Type) where
  source : ρ
  config : Config
  /-- How many samples a loop takes that waits for a suitable one. -/
  attempts : Nat
  scope : Scope
  symbols : SymbolTable
  /-- How many expressions, array and tuple literals, and calls are being built around the next
  expression. -/
  exprDepth : Nat
  /-- How many blocks and case bodies are being built around the next statement. -/
  stmtDepth : Nat
  /-- The jump targets around the current statement, innermost first. -/
  jumps : List JumpTarget
  /-- The number of the next variable of the function. -/
  nextVar : Nat
  /-- The number of the next loop counter of the function. -/
  nextCounter : Nat
  currentClass : Option ClassRef
  /-- The result type of the function that is being built. -/
  currentResult : Ty
deriving Repr

/-- A step of the building. -/
abbrev Build (ρ : Type) (α : Type) := StateT (Generator ρ) (Except Fault) α

namespace Generator

variable {ρ : Type}

/-- The state before the first step. -/
def start (source : ρ) (config : Config) (attempts : Nat) : Generator ρ where
  source
  config
  attempts
  scope := .empty
  symbols := .empty
  exprDepth := 0
  stmtDepth := 0
  jumps := []
  nextVar := 0
  nextCounter := 0
  currentClass := none
  currentResult := .void

/-- What a draw sees of the state. -/
def env (g : Generator ρ) : Env :=
  ⟨g.config, g.attempts, g.symbols, g.scope, g.currentClass⟩

/-- How many levels of nested statements are still allowed. -/
def room (g : Generator ρ) : Nat := g.config.maxStmtDepth - g.stmtDepth

end Generator

namespace Build

variable {ρ : Type}

/-- A draw that sees the surroundings. -/
def draw {α : Type} (x : Env → Draw ρ α) : Build ρ α := fun g => do
  let (a, source) ← x g.env g.source
  return (a, { g with source })

/-- Changes the scope. -/
def modifyScope (f : Scope → Except Fault Scope) : Build ρ Unit := fun g => do
  let scope ← f g.scope
  return ((), { g with scope })

/-- Changes the symbol table. -/
def modifySymbols {α : Type} (f : SymbolTable → Except Fault (α × SymbolTable)) : Build ρ α :=
  fun g => do
    let (a, symbols) ← f g.symbols
    return (a, { g with symbols })

/-- A fresh variable name. -/
def freshVar : Build ρ String := fun g =>
  .ok ("v" ++ toString g.nextVar, { g with nextVar := g.nextVar + 1 })

/-- A fresh name of a loop counter. -/
def freshCounter : Build ρ String := fun g =>
  .ok ("_c" ++ toString g.nextCounter, { g with nextCounter := g.nextCounter + 1 })

/-- Starts a function; no scope frame may be open. -/
def beginFunction (owner : Option ClassRef) (result : Ty) : Build ρ Unit := fun g =>
  if g.scope.depth ≠ 0 then .error (.functionInsideScope g.scope.depth)
  else
    .ok ((), { g with
      stmtDepth := 0
      jumps := []
      nextVar := 0
      nextCounter := 0
      currentClass := owner
      currentResult := result })

/-- A step inside a scope frame of its own. -/
def inFrame {α : Type} (x : Build ρ α) : Build ρ α := do
  modifyScope fun s => .ok s.enter
  let a ← x
  modifyScope Scope.leave
  return a

/-- A step one level deeper in the nesting of expressions. -/
def deeper {α : Type} (x : Build ρ α) : Build ρ α := do
  modify fun g => { g with exprDepth := g.exprDepth + 1 }
  let a ← x
  modify fun g => { g with exprDepth := g.exprDepth - 1 }
  return a

/-- A step one level deeper in the nesting of statements. -/
def nested {α : Type} (x : Build ρ α) : Build ρ α := do
  modify fun g => { g with stmtDepth := g.stmtDepth + 1 }
  let a ← x
  modify fun g => { g with stmtDepth := g.stmtDepth - 1 }
  return a

/-- A step inside a new jump target. -/
def withTarget {α : Type} (target : JumpTarget) (x : Build ρ α) : Build ρ α := do
  modify fun g => { g with jumps := target :: g.jumps }
  let a ← x
  modify fun g => { g with jumps := g.jumps.tail }
  return a

end Build

end TypedPhp
