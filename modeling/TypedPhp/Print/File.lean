import TypedPhp.Print.Stmt
import TypedPhp.Syntax.Program

set_option autoImplicit false

/-!
# Text of files

Declarations, top-level nodes and whole files. A blank line goes before every top-level node
except a `require_once` that follows another.
-/

namespace TypedPhp.Print

/-- Lines of a documentation comment; without tags there is no comment. -/
def docComment (indent : Nat) (tags : List DocTag) : List Char :=
  if tags.isEmpty then []
  else
    lineBreak indent ++ "/**".toList ++
      tags.flatMap (fun tag =>
        lineBreak indent ++ " * ".toList ++ tag.name.toList ++ ' ' :: tag.value.toList) ++
      lineBreak indent ++ " */".toList

/-- An initial value after a name. -/
def initial : Option Node → Written
  | none => return []
  | some n => do
    let value ← expr n
    return " = ".toList ++ value

/-- A parameter list. -/
def params (ps : List Param) : Written :=
  commaList (ps.map fun p => do
    let value ← initial p.default
    return '$' :: (p.name.toList ++ value))

/-- A function or method declaration. -/
def func (indent : Nat) (isMethod : Bool) (f : FuncDecl) : Written := do
  let ps ← params f.type.params
  let body ← lines (indent + 1) f.body
  return docComment indent f.tags ++ lineBreak indent ++
    (if isMethod then "public function ".toList else "function ".toList) ++
    f.type.name.toList ++ '(' :: (ps ++ ") \x7b".toList ++ body ++ lineBreak indent ++ ['\x7d'])

/-- The fields of a class, each under a comment with its type. -/
def fields (indent : Nat) : List Field → Written
  | [] => return []
  | f :: fs => do
    let value ← initial f.init
    let rest ← fields indent fs
    return lineBreak indent ++ "/** @var ".toList ++ f.type.text ++ " */".toList ++
      lineBreak indent ++ f.visibility.text.toList ++ " $".toList ++ f.name.toList ++ value ++
      ';' :: rest

/-- The methods of a class, each after a blank line. -/
def methods (indent : Nat) : List FuncDecl → Written
  | [] => return []
  | f :: fs => do
    let text ← func indent true f
    let rest ← methods indent fs
    return '\n' :: (text ++ rest)

/-- A class declaration. -/
def classDecl (type : ClassType) (decls : List FuncDecl) : Written := do
  let fieldText ← fields 1 type.fields
  let methodText ← methods 1 decls
  return lineBreak 0 ++ "class ".toList ++ type.name.toList ++ " \x7b".toList ++ fieldText ++
    methodText ++ lineBreak 0 ++ ['\x7d']

/-- A top-level node. -/
def rootNode : RootNode → Written
  | .require path =>
    return lineBreak 0 ++ "require_once __DIR__ . '/".toList ++ path.toList ++ "';".toList
  | .stmt n => stmt 0 n (Layout.of n.op)
  | .func f => func 0 false f
  | .classDecl type decls => classDecl type decls

/-- Top-level nodes with the blank lines between them. -/
def rootNodes (afterRequire : Bool) : List RootNode → Written
  | [] => return []
  | n :: ns => do
    let text ← rootNode n
    let rest ← rootNodes n.isRequire ns
    return (if n.isRequire && afterRequire then [] else ['\n']) ++ text ++ rest

/-- A text as the contents of a file, which end in a line break. -/
def finish (text : Written) : Except Fault String := do
  let chars ← text
  return String.ofList (chars ++ ['\n'])

/-- The contents of a source file. -/
def file (f : File) : Except Fault String :=
  finish do
    let body ← rootNodes false f.nodes
    return "<?php".toList ++ body

end TypedPhp.Print
