import TypedPhp.Signature

set_option autoImplicit false

/-!
# Programs

A program is a list of source files over a fixed support file. A source file is a list of
top-level nodes.
-/

namespace TypedPhp

/-- A line of a documentation comment. -/
structure DocTag where
  name : String
  value : String
deriving DecidableEq, Repr, Inhabited

/-- A function or method with its body. -/
structure FuncDecl where
  type : FuncType
  tags : List DocTag
  body : List Node
deriving Repr, Inhabited

/-- What stands at the top level of a file. -/
inductive RootNode where
  | require (path : String)
  | stmt (node : Node)
  | func (decl : FuncDecl)
  | classDecl (type : ClassType) (methods : List FuncDecl)
deriving Repr, Inhabited

namespace RootNode

def isRequire : RootNode → Bool
  | require _ => true
  | _ => false

/-- The functions and methods that a top-level node declares. -/
def bodies : RootNode → List FuncDecl
  | func f => [f]
  | classDecl _ methods => methods
  | _ => []

end RootNode

/-- A source file. -/
structure File where
  name : String
  nodes : List RootNode
deriving Repr, Inhabited

/-- Every function and method of a file. -/
def File.bodies (f : File) : List FuncDecl := f.nodes.flatMap RootNode.bodies

/-- A file whose text is fixed. -/
structure SupportFile where
  name : String
  contents : String
deriving DecidableEq, Repr, Inhabited

/-- A generated program. -/
structure Program where
  support : List SupportFile
  files : List File
deriving Repr, Inhabited

end TypedPhp
