import TypedPhp.Print.File

set_option autoImplicit false

/-!
# Text of programs

The files of a program with their contents, the support files first.
-/

namespace TypedPhp.Print

/-- Every file of a program, as its name and its contents. -/
def program (p : Program) : Except Fault (List (String × String)) := do
  let generated ← p.files.mapM fun f => do
    let contents ← file f
    return (f.name, contents)
  return p.support.map (fun f => (f.name, f.contents)) ++ generated

end TypedPhp.Print
