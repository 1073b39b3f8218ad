import TypedPhp.CommandLine
import TypedPhp.Config.File
import TypedPhp.Generate.Program
import TypedPhp.Print.Program

set_option autoImplicit false

/-!
# Program

Reads a settings file, generates a program, and writes its files.
-/

namespace TypedPhp

/-- The configuration of a request. -/
def WriteRequest.load (r : WriteRequest) : IO Config :=
  match r.config with
  | none => return .standard
  | some path => do
    match Config.ofFile (← IO.FS.readFile path) with
    | .ok config => return config
    | .error refusal => throw (IO.userError (path ++ ": " ++ refusal.message))

/-- Writes the program of a request. -/
def WriteRequest.run (r : WriteRequest) : IO Unit := do
  let config ← r.load
  match Program.ofSeed r.seed config >>= Print.program with
  | .error fault => throw (IO.userError fault.message)
  | .ok files =>
    IO.FS.createDirAll r.out
    for (name, contents) in files do
      IO.FS.writeFile (r.out ++ "/" ++ name) contents

end TypedPhp

/-- Runs the command that the arguments ask for. -/
def main (args : List String) : IO UInt32 := do
  match TypedPhp.CommandLine.request args with
  | .error e =>
    IO.eprintln e.message
    IO.eprintln TypedPhp.usage
    return 2
  | .ok request =>
    try
      request.run
      return 0
    catch e =>
      IO.eprintln (toString e)
      return 1
