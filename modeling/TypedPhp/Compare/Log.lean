import TypedPhp.Compare.Verdict

set_option autoImplicit false

/-!
# Logs

The account of a round that is kept: its seed, the verdict with its details, and all output of
both runs.
-/

namespace TypedPhp.Log

/-- The details of a verdict. -/
def details : Verdict → String
  | .diverged diff => "\n" ++ diff ++ "\n"
  | .exception engine line => engine ++ ": " ++ line ++ "\n"
  | _ => ""

/-- An exit code, as logs write it. -/
def exitCode : Option Nat → String
  | some n => "Some(" ++ toString n ++ ")"
  | none => "None"

/-- The account of one run. -/
def run (r : NamedRun) : String :=
  "\n== " ++ r.engine ++ " (exit " ++ exitCode r.result.exitCode ++ ") ==\n-- stdout --\n" ++
    r.result.stdout ++ "\n-- stderr --\n" ++ r.result.stderr ++ "\n"

/-- The account of a round. -/
def text (seed : Nat) (verdict : Verdict) (runs : List NamedRun) : String :=
  "seed: " ++ toString seed ++ "\nverdict: " ++ verdict.label ++ "\n" ++ details verdict ++
    String.join (runs.map run)

end TypedPhp.Log
