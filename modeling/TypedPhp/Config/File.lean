import TypedPhp.Config.Basic
import TypedPhp.Config.Number

set_option autoImplicit false

/-!
# Settings files

A settings file is a TOML document. Every setting is a number under a plain key at the top
level, so a document that holds anything else (a table, a dotted key, a string, a truth value,
a date, an array) cannot be a settings file, whether it is well formed or not. What is left is
read line by line.
-/

namespace TypedPhp.Config

namespace Line

def isBlank (c : Char) : Bool := c = ' ' || c = '\t'

def isBareKeyChar (c : Char) : Bool := c.isAlphanum || c = '_' || c = '-'

/-- Whether a character may occur in a comment: every one but the controls other than a tab. -/
def isCommentChar (c : Char) : Bool := c = '\t' || (0x20 ≤ c.toNat && c.toNat ≠ 0x7f)

/-- The character of a hexadecimal escape. -/
def hexChar? (cs : List Char) : Option Char := do
  let ds ← cs.mapM (Number.digitValue? 16)
  let n := Number.ofDigits 16 ds
  if n.isValidChar then some (Char.ofNat n) else none

/-- The character of an escape of one letter. -/
def escaped? : Char → Option Char
  | 'b' => some '\x08'
  | 't' => some '\t'
  | 'n' => some '\n'
  | 'f' => some '\x0c'
  | 'r' => some '\r'
  | '"' => some '"'
  | '\\' => some '\\'
  | _ => none

/-- The rest of a key in double quotes, and what follows it. -/
def basicKey? : List Char → Option (List Char × List Char)
  | [] => none
  | '"' :: rest => some ([], rest)
  | '\\' :: 'u' :: a :: b :: c :: d :: rest => do
    let x ← hexChar? [a, b, c, d]
    let (key, after) ← basicKey? rest
    return (x :: key, after)
  | '\\' :: 'U' :: a :: b :: c :: d :: e :: f :: g :: h :: rest => do
    let x ← hexChar? [a, b, c, d, e, f, g, h]
    let (key, after) ← basicKey? rest
    return (x :: key, after)
  | '\\' :: l :: rest => do
    let x ← escaped? l
    let (key, after) ← basicKey? rest
    return (x :: key, after)
  | c :: rest =>
    if c ≠ '\\' ∧ isCommentChar c then do
      let (key, after) ← basicKey? rest
      return (c :: key, after)
    else none

/-- The rest of a key in single quotes, and what follows it. -/
def literalKey? : List Char → Option (List Char × List Char)
  | [] => none
  | '\'' :: rest => some ([], rest)
  | c :: rest =>
    if isCommentChar c then do
      let (key, after) ← literalKey? rest
      return (c :: key, after)
    else none

/-- The key at the front of a line, and what follows it. -/
def key? : List Char → Option (List Char × List Char)
  | '"' :: rest => basicKey? rest
  | '\'' :: rest => literalKey? rest
  | cs =>
    match cs.takeWhile isBareKeyChar with
    | [] => none
    | key => some (key, cs.dropWhile isBareKeyChar)

/-- Whether nothing but blanks and a comment is left. -/
def isEnd (cs : List Char) : Bool :=
  match cs.dropWhile isBlank with
  | [] => true
  | c :: rest => c = '#' && rest.all isCommentChar

/-- The key and number of a line that is not empty. -/
def assignment? (cs : List Char) : Option (String × Number) := do
  let (key, rest) ← key? cs
  match rest.dropWhile isBlank with
  | '=' :: rest =>
    let rest := rest.dropWhile isBlank
    let isValueChar (c : Char) : Bool := !isBlank c && c ≠ '#'
    let number ← Number.ofText? (rest.takeWhile isValueChar)
    if isEnd (rest.dropWhile isValueChar) then some (String.ofList key, number) else none
  | _ => none

end Line

/-- The lines of a text. A line feed ends a line, with a carriage return before it or not; one
at the end of the text stays. -/
def splitLines : List Char → List (List Char)
  | [] => [[]]
  | '\n' :: cs => [] :: splitLines cs
  | '\r' :: '\n' :: cs => [] :: splitLines cs
  | c :: cs =>
    match splitLines cs with
    | [] => [[c]]
    | l :: ls => (c :: l) :: ls

/-- A byte order mark at the front is passed over. -/
def skipMark : List Char → List Char
  | '\ufeff' :: cs => cs
  | cs => cs

/-- The keys and numbers of a document, in order; none if a line is anything else. -/
def assignments? : List (List Char) → Option (List (String × Number))
  | [] => some []
  | l :: ls =>
    let l := l.dropWhile Line.isBlank
    if Line.isEnd l then assignments? ls
    else do
      let a ← Line.assignment? l
      let rest ← assignments? ls
      return a :: rest

/-- A configuration with one setting changed. A count needs an integer that is not negative; a
chance takes any number. -/
def assign? (c : Config) (name : String) (value : Number) : Option Config := do
  match ← setting? name, value with
  | .count _ set, .integer n => if 0 ≤ n then some (set c n.toNat) else none
  | .count .., .float _ => none
  | .chance _ set, .integer n => some (set c (.ofInt n))
  | .chance _ set, .float x => some (set c x)

/-- A configuration with several settings changed, none of them twice. -/
def assignAll? (c : Config) (seen : List String) : List (String × Number) → Option Config
  | [] => some c
  | (name, value) :: rest =>
    if name ∈ seen then none
    else do
      let c ← c.assign? name value
      assignAll? c (name :: seen) rest

/-- The configuration that a settings file asks for; settings that it leaves out keep their
standard values. -/
def ofFile (text : String) : Except Refusal Config :=
  match assignments? (splitLines (skipMark text.toList)) >>= standard.assignAll? [] with
  | none => .error .badFile
  | some c => do
    c.validate
    return c

end TypedPhp.Config
