import TypedPhp.Generate.Decl
import TypedPhp.Generate.Signatures
import TypedPhp.Random.Scripted
import TypedPhp.Support

set_option autoImplicit false

/-!
# Random programs

A program has library files, over which the classes are dealt out in turn, and a main file. The
main file requires all other files, declares functions of its own, and calls each of them once
from a function that runs at the end. Without library files it holds the classes as well.
-/

namespace TypedPhp

/-- The name of the main file. -/
def mainFileName : String := "main.php"

/-- The name of the library file of number `i`. -/
def libFileName (i : Nat) : String := "lib" ++ toString i ++ ".php"

/-- The share of place `i` when a list is dealt out in turn to `n` places. -/
def share {α : Type} (n i : Nat) (xs : List α) : List α :=
  (xs.zipIdx.filter fun x => x.2 % n = i).map (·.1)

/-- The library files, with the classes dealt out to them ahead of their functions. -/
def libraries (classes : List RootNode) (funcs : List (List FuncDecl)) : List File :=
  funcs.zipIdx.map fun (decls, i) =>
    ⟨libFileName i, share funcs.length i classes ++ decls.map .func⟩

namespace Build

variable {ρ : Type} [WordSource ρ]

/-- A call of a function that is not in the symbol table; what it returns is dumped if it can
be. -/
def entryCall (f : FuncType) : Build ρ Node := do
  let n ← draw fun _ => Draw.range f.minArgs f.params.length
  let args ← Draw.each (fun p => value p.type) (f.params.take n)
  let call := (Node.call f.name args).withType f.result
  return if f.result.canDump then .call "fuzz_dump" [.name "__LINE__", call] else call

/-- The function of number `i` of the main file. -/
def mainFunc (i : Nat) : Build ρ FuncDecl := do
  let f ← draw fun env => Draw.function env ("fn" ++ toString i)
  funcDecl false f

/-- The function that calls the given ones, each once and in order. -/
def entry (funcs : List FuncType) : Build ρ FuncDecl := do
  beginFunction none .void
  let calls ← inFrame (Draw.each entryCall funcs)
  let type : FuncType := .function "main" [] .void
  return ⟨type, type.docTags, calls⟩

/-- The top-level nodes of the main file after those that require other files. -/
def mainNodes : Build ρ (List RootNode) := do
  let count ← draw fun env => Draw.range env.config.mainFuncs.min env.config.mainFuncs.max
  let funcs ← (List.range count).mapM mainFunc
  let entry ← entry (funcs.map (·.type))
  return funcs.map .func ++ [.func entry, .stmt (.call "main" [])]

/-- A whole program, from the state before the first step. -/
def program : Build ρ Program := do
  registerBuiltins
  let known ← signatures
  modifySymbols fun s => do return ((), ← s.freeze)
  let classes ← known.classes.mapM classDecl
  let funcs ← known.libFuncs.mapM fun fs => fs.mapM (funcDecl true)
  let files := libraries classes funcs
  let ownClasses := if files.isEmpty then classes else []
  let requires := (Support.fileName :: files.map (·.name)).map .require
  let nodes ← mainNodes
  return ⟨Support.files, files ++ [⟨mainFileName, ownClasses ++ requires ++ nodes⟩]⟩

end Build

namespace Program

/-- How many samples a loop takes, unless told otherwise, that waits for a suitable one. -/
def attempts : Nat := 0x100000000

/-- The program that a source of random words gives. -/
def ofSource {ρ : Type} [WordSource ρ] (source : ρ) (config : Config) : Except Fault Program :=
  (·.1) <$> Build.program (Generator.start source config attempts)

/-- The program of a seed. The same seed and configuration always give the same program. -/
def ofSeed (seed : UInt64) (config : Config) : Except Fault Program :=
  ofSource (RandomSource.ofSeed seed) config

end Program

end TypedPhp
