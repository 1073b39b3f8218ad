import TypedPhp.Generate.Stmt
import TypedPhp.Proofs.Expr.Constant

set_option autoImplicit false

/-!
# Grammar of generated statements

A building step is described by its effect: a relation between the state before it, the statements
that it builds and the state after it, where the source of random words is left out of the states.
There is one rule for every way in which the generator builds a statement. `Statement room` is the
effect of one statement with room for the given number of nested levels; what is nested in it has
room for one level less.
-/

namespace TypedPhp

/-- A state of the building without its source. -/
def Generator.view {ρ : Type} (g : Generator ρ) : Generator Unit := { g with source := () }

@[simp]
theorem Generator.view_env {ρ : Type} (g : Generator ρ) : g.view.env = g.env := rfl

@[simp]
theorem Generator.view_config {ρ : Type} (g : Generator ρ) : g.view.config = g.env.config := rfl

/-- A relation between the state before a step, the statements it builds, and the state after. -/
abbrev Effect := Generator Unit → List Node → Generator Unit → Prop

/-! ## Places and values -/

section Places

variable (env : Env)

/-- The object of a field that is assigned: the current one inside the class, else a variable. -/
def Env.Holds (c : ClassRef) (object : Node) : Prop :=
  (env.isCurrent c = true ∧ object = .var "this" (.object c)) ∨
    (env.isCurrent c = false ∧ env.Reads (.object c) object)

/-- A place of a type that can be assigned: a visible variable or an accessible field. -/
inductive Place (t : Ty) : Node → Prop where
  | var {v : ScopeVar} : v ∈ env.scope.visible → v.type = t → Place t (Env.varNode v)
  | field {c : ClassRef} {f : Field} {object : Node} : t.Literate → Accessible env t c f →
      env.Holds c object → Place t ((Node.prop object f.name).withType t)

/-- The first value of a variable of a type. -/
inductive Initial (b : Nat) (t : Ty) : Node → Prop where
  | value {x : Node} : Derives env b (.value t) x → Initial b t x
  | call {elem : Ty} {f : FuncType} {x : Node} : t = .array elem → f ∈ env.symbols.funcs →
      f.result.identical t = true → Derives env b (.call f) x → Initial b t x
  | cast {k : Scalar} {x : Node} : t = .scalar k → Derives env b (.value t) x →
      Initial b t (.cast t x.asOperand)

/-- The statements of an assignment to a place of a type: at most one. -/
inductive Assigns (b : Nat) (t : Ty) (place : Node) : List Node → Prop where
  | compound {op : Op} {x : Node} : op ∈ Draw.compoundOps t → Derives env b (.value t) x →
      Assigns b t place [.assignModify op place x]
  | value {x : Node} : x.readsPlace place = false → Derives env b (.value t) x →
      Assigns b t place [.assign place x]
  | constant {x : Node} : DrawnConstant t x → Assigns b t place [.assign place x]
  | nothing : t.isConstInitializable = false → Assigns b t place []

/-- A dump of a variable or a value with the number of its line. -/
inductive Dumps (b : Nat) : Node → Prop where
  | var {v : ScopeVar} : v ∈ env.scope.visible → v.type.canDump = true →
      Dumps b (.call "fuzz_dump" [.name "__LINE__", Env.varNode v])
  | value {t : Ty} {x : Node} : t.canDump = true → t.Within env.symbols.classNames →
      Derives env b (.value t) x → Dumps b (.call "fuzz_dump" [.name "__LINE__", x])

/-- A return from a function with a given result. -/
inductive Returns (b : Nat) (result : Ty) : Node → Prop where
  | void : result.isVoid = true → Returns b result .retVoid
  | value {x : Node} : result.isVoid = false → Derives env b (.value result) x →
      Returns b result (.ret x)

/-- The type of a switch: integers or strings, or an enum of them. -/
inductive TagType : Ty → Prop where
  | int : TagType .int
  | string : TagType .string
  | enum {e : EnumType} : e.kind = .int ∨ e.kind = .string → (∀ l ∈ e.values, l.kind = e.kind) →
      e.values ≠ [] → TagType (.enum e)

end Places

/-! ## Lists and frames -/

/-- The effect of a declaration of a fresh variable. -/
inductive Declares : Effect where
  | of {g : Generator Unit} {t : Ty} {x : Node} {s : Scope} : t.Storable →
      t.Within g.symbols.classNames → Initial g.env g.budget t x →
      g.scope.push ("v" ++ toString g.nextVar) t = .ok s →
      Declares g [.assign (.var ("v" ++ toString g.nextVar) t) x]
        { g with nextVar := g.nextVar + 1, scope := s }

section Lists

variable (one : Effect)

/-- The effect of up to `n` repetitions, up to and including the first jump. -/
inductive Repeats : Nat → Effect where
  | none (g : Generator Unit) : Repeats 0 g [] g
  | jump {n : Nat} {g g' : Generator Unit} {ns : List Node} : one g ns g' →
      Build.endsInJump ns = true → Repeats (n + 1) g ns g'
  | next {n : Nat} {g g' g'' : Generator Unit} {ns rest : List Node} : one g ns g' →
      Build.endsInJump ns = false → Repeats n g' rest g'' →
      Repeats (n + 1) g (ns ++ rest) g''

/-- The effect of a step in a frame of its own, one level deeper. -/
inductive Nests : Effect where
  | of {g g' : Generator Unit} {ns : List Node} {s : Scope} :
      one { g with scope := g.scope.enter, stmtDepth := g.stmtDepth + 1 } ns g' →
      g'.scope.leave = .ok s →
      Nests g ns { g' with stmtDepth := g'.stmtDepth - 1, scope := s }

/-- The effect of a step inside a jump target. -/
inductive Targets (target : JumpTarget) : Effect where
  | of {g g' : Generator Unit} {ns : List Node} :
      one { g with jumps := target :: g.jumps } ns g' →
      Targets target g ns { g' with jumps := g'.jumps.tail }

/-- The effect of some repetitions. -/
inductive Many : Effect where
  | of {n : Nat} {g g' : Generator Unit} {ns : List Node} : Repeats one n g ns g' → Many g ns g'

/-- The effect on the statements of a block. -/
def Blocks : Effect := Nests (Many one)

/-- The effect of the statements of a case: at most two, and mostly a break after them. -/
inductive CaseStmts : Effect where
  | plain {n : Nat} {g g' : Generator Unit} {ns : List Node} : n ≤ 2 → Repeats one n g ns g' →
      CaseStmts g ns g'
  | broken {n : Nat} {g g' : Generator Unit} {ns : List Node} : n ≤ 2 → Repeats one n g ns g' →
      Build.endsInJump ns = false → CaseStmts g (ns ++ [.ofArgs .breakJump []]) g'

/-- The effect on the body of a case. -/
def CaseBody : Effect := Nests (Targets (CaseStmts one) .switch)

/-- The effect of up to `n` cases with labels that are not in `seen`. -/
inductive Cases (t : Ty) : Nat → List Literal → Effect where
  | none (g : Generator Unit) (seen : List Literal) : Cases t 0 seen g [] g
  | repetition {n : Nat} {seen : List Literal} {g g' : Generator Unit} {ns : List Node}
      {l : Literal} : DrawnConstant t (.lit l) → seen.any (·.same l) = true →
      Cases t n seen g ns g' → Cases t (n + 1) seen g ns g'
  | case {n : Nat} {seen : List Literal} {g g' g'' : Generator Unit} {body rest : List Node}
      {l : Literal} : DrawnConstant t (.lit l) → seen.any (·.same l) = false →
      CaseBody one g body g' → Cases t n (l :: seen) g' rest g'' →
      Cases t (n + 1) seen g (.ofArgs .case (.lit l :: body) :: rest) g''

/-- The effect of the default of a switch, if there is one. -/
inductive Defaults : Effect where
  | none (g : Generator Unit) : Defaults g [] g
  | body {g g' : Generator Unit} {ns : List Node} : CaseBody one g ns g' →
      Defaults g [.ofArgs .defaultCase ns] g'

end Lists

/-! ## Statements -/

/-- The condition that a counter is below a bound, with the counter stepped. -/
def Node.counterBelow (counter : String) (bound : Int64) : Node :=
  .binary .less (.unary .postInc (.var counter .int)) (.intLit bound)

/-- The assignment that sets a counter to zero. -/
def Node.resetCounter (counter : String) : Node := .assign (.var counter .int) (.intLit 0)

/-- The name of the next loop counter of a function. -/
def Generator.counterName {ρ : Type} (g : Generator ρ) : String := "_c" ++ toString g.nextCounter

/-- The effect of one statement, given the effect of the statements nested in it, or nothing
where there is no room for any. -/
inductive Emits (inner : Option Effect) : Effect where
  -- An assignment may build nothing, and a loop builds the reset of its counter with it.
  | declaration {g g' : Generator Unit} {ns : List Node} : Declares g ns g' → Emits inner g ns g'
  | assignment {g : Generator Unit} {t : Ty} {place : Node} {ns : List Node} :
      Place g.env t place → Assigns g.env g.budget t place ns → Emits inner g ns g
  | dump {g : Generator Unit} {n : Node} : Dumps g.env g.budget n → Emits inner g [n] g
  | echo {g : Generator Unit} {s : Node} :
      Derives g.env g.budget (.category (.value .string)) s →
      Emits inner g [.ofArgs .echo [s, .textLit "\n"]] g
  | voidCall {g : Generator Unit} {f : FuncType} {n : Node} : f ∈ g.symbols.funcs →
      f.result = .void → Derives g.env g.budget (.call f) n → Emits inner g [n] g
  | block {one : Effect} {g g' : Generator Unit} {body : List Node} : inner = some one →
      Blocks one g body g' → Emits inner g [.block body] g'
  | ifThen {one : Effect} {g g' : Generator Unit} {cond : Node} {body : List Node} :
      inner = some one → Derives g.env g.budget (.category .cond) cond →
      Blocks one g body g' → Emits inner g [.ifThen cond (.block body)] g'
  | ifElse {one : Effect} {g g' g'' : Generator Unit} {cond : Node} {body other : List Node} :
      inner = some one → Derives g.env g.budget (.category .cond) cond →
      Blocks one g body g' → Blocks one g' other g'' →
      Emits inner g [.ifElse cond (.block body) (.block other)] g''
  | whileLoop {one : Effect} {g g' : Generator Unit} {limit : Nat} {body : List Node} :
      inner = some one → 1 ≤ limit → limit ≤ g.config.maxLoopIterations →
      Targets (Blocks one) .loop { g with nextCounter := g.nextCounter + 1 } body g' →
      Emits inner g [.resetCounter g.counterName, .ofArgs .whileLoop
        [.counterBelow g.counterName (.ofNat limit), .block body]] g'
  | doWhile {one : Effect} {g g' : Generator Unit} {limit : Nat} {body : List Node} :
      inner = some one → 1 ≤ limit → limit ≤ g.config.maxLoopIterations →
      Targets (Blocks one) .loop { g with nextCounter := g.nextCounter + 1 } body g' →
      Emits inner g [.resetCounter g.counterName, .ofArgs .doWhile
        [.block body, .counterBelow g.counterName (.ofNat limit - 1)]] g'
  | switch {one : Effect} {g g' g'' : Generator Unit} {t : Ty} {tag : Node} {n : Nat}
      {cases default : List Node} : inner = some one → TagType t →
      t.Within g.symbols.classNames → Derives g.env g.budget (.value t) tag →
      1 ≤ n → n ≤ max g.config.maxCases 1 → Cases one t n [] g cases g' → Defaults one g' default g'' →
      Emits inner g [.ofArgs .switch (tag :: cases ++ default)] g''
  | breakJump {g : Generator Unit} : g.jumps ≠ [] →
      Emits inner g [.ofArgs .breakJump []] g
  | continueJump {g : Generator Unit} : g.jumps.head? = some .loop →
      Emits inner g [.ofArgs .continueJump []] g
  | returnJump {g : Generator Unit} {n : Node} : 0 < g.stmtDepth →
      Returns g.env g.budget g.currentResult n → Emits inner g [n] g

/-- The effect of one statement with room for the given number of nested levels. -/
def Statement : Nat → Effect
  | 0 => Emits none
  | room + 1 => Emits (some (Statement room))

/-- The effect of a function body: declarations, statements, and a return of the result if there is
one. -/
inductive Body : Effect where
  | void {g g' g'' : Generator Unit} {n m : Nat} {decls stmts : List Node} :
      Repeats Declares n g decls g' → Repeats (Statement g'.room) m g' stmts g'' →
      g''.currentResult.isVoid = true → Body g (decls ++ stmts) g''
  | value {g g' g'' : Generator Unit} {n m : Nat} {decls stmts : List Node} {last : Node} :
      Repeats Declares n g decls g' → Repeats (Statement g'.room) m g' stmts g'' →
      g''.currentResult.isVoid = false → Returns g''.env g''.budget g''.currentResult last →
      Body g (decls ++ stmts ++ [last]) g''

end TypedPhp
