import TypedPhp.Compare.Unified
import TypedPhp.Text.Lines

set_option autoImplicit false

/-!
# Verdicts

A program is run by a reference engine and by a compiling one, and the two runs are compared. A
program that does not compile comes first, then a run that does not end, then an exception in
the reference run, then one in the compiled run, and only then the output.
-/

namespace TypedPhp

/-- What a run of a program left behind. -/
structure RunResult where
  stdout : String
  stderr : String
  /-- Whether the program was compiled; always so for an engine that does not compile. -/
  compiled : Bool
  /-- Whether the run ended in time. -/
  terminated : Bool
  /-- The exit code of a run that ended by itself. -/
  exitCode : Option Nat
deriving DecidableEq, Repr, Inhabited

/-- Whether a run ended well. -/
def RunResult.succeeded (r : RunResult) : Bool :=
  r.compiled && r.terminated && r.exitCode == some 0

/-- A run with the name of its engine. -/
structure NamedRun where
  engine : String
  result : RunResult
deriving DecidableEq, Repr, Inhabited

/-- A way to compare two texts by lines. -/
structure Differ where
  lines : String → List String
  /-- A script from the lines of one text to those of another. -/
  script : List String → List String → Script String
  /-- Whether two texts count as the same by the script between them. -/
  isFull : Script String → Bool

/-- Lines with their ends, and a script that keeps as many of them as possible. -/
def Differ.standard : Differ := ⟨Text.lines, Script.between, Script.isUnchanged⟩

/-- How a comparison ended. -/
inductive Verdict where
  | same
  /-- The outputs differ; the difference goes from the reference to the compiled run. -/
  | diverged (diff : String)
  /-- A line of an engine's output tells of an error that no generated program should meet. -/
  | exception (engine line : String)
  | compileError
  | timeout
deriving DecidableEq, Repr, Inhabited

namespace Verdict

/-- The name of a verdict in reports. -/
def label : Verdict → String
  | same => "match"
  | diverged _ => "diverged"
  | exception .. => "exception"
  | compileError => "compile error"
  | timeout => "timeout"

/-- Whether the files of a round are worth keeping. -/
def isFinding : Verdict → Bool
  | same | timeout => false
  | _ => true

/-- What an exception message holds, in small letters. -/
def exceptionPatterns : List String := ["uncaught exception", "fatal error"]

/-- Whether a line tells of an exception. Large and small letters are alike. -/
def isException (line : String) : Bool :=
  exceptionPatterns.any fun p => Text.occurs p.toList (line.toList.map Char.toLower)

/-- The first line of a run that tells of an exception, the regular output first. -/
def exceptionLine? (r : RunResult) : Option String :=
  (Text.rows r.stdout ++ Text.rows r.stderr).find? isException

/-- The verdict on a program from a run of the reference engine and one of the compiling
engine, whose outputs are compared by the given means. -/
def judgeBy (d : Differ) (reference compiled : NamedRun) : Verdict :=
  if !compiled.result.compiled then compileError
  else if !reference.result.terminated || !compiled.result.terminated then timeout
  else
    match exceptionLine? reference.result, exceptionLine? compiled.result with
    | some line, _ => exception reference.engine line
    | none, some line => exception compiled.engine line
    | none, none =>
      let script :=
        d.script (d.lines reference.result.stdout) (d.lines compiled.result.stdout)
      if d.isFull script then same
      else diverged (Unified.text reference.engine compiled.engine script)

/-- The verdict on a program from a run of the reference engine and one of the compiling
engine. -/
def judge (reference compiled : NamedRun) : Verdict := judgeBy .standard reference compiled

end Verdict

end TypedPhp
