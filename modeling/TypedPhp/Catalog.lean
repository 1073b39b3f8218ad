import TypedPhp.Signature

set_option autoImplicit false

/-!
# Built-in functions

The functions of the language that generated code may call: those that behave alike on both
engines for every argument that can be generated.
-/

namespace TypedPhp

namespace Param

/-- A parameter whose arguments are cast to its type. -/
def strict (name : String) (type : Ty) : Param := ⟨name, type, none, true⟩

/-- A parameter that a call may leave out. -/
def optional (name : String) (type : Ty) (default : Node) : Param :=
  ⟨name, type, some default, false⟩

end Param

namespace Catalog

/-- The characters that are trimmed where a call does not say which. -/
def trimmed : Node := .textLit " \n\r\t\x0b\x00"

/-- A function from a string to another type, with one parameter. -/
def ofString (name : String) (result : Ty) : FuncType :=
  .function name [.required "string" .string] result

/-- A function that trims a string. -/
def trimming (name : String) : FuncType :=
  .function name
    [.required "string" .string, .optional "characters" .string trimmed] .string

/-- The greater or the lesser of two integers. -/
def extremum (name : String) : FuncType :=
  .function name [.required "value" .int, .required "values" .int] .int

/-- A function on floats that takes nothing else. -/
def numeric (name : String) : FuncType := .function name [.strict "num" .float] .float

/-- A function that converts or examines a value. -/
def ofValue (name : String) (type result : Ty) : FuncType :=
  .function name [.required "value" type] result

/-- The built-in functions, in the order in which they are registered. -/
def builtins : List FuncType :=
  [ ofString "strlen" .int,
    trimming "ltrim",
    trimming "rtrim",
    trimming "trim",
    ofString "strtoupper" .string,
    ofString "strtolower" .string,
    ofString "ucfirst" .string,
    ofString "lcfirst" .string,
    ofString "strrev" .string,
    .function "substr"
      [.required "string" .string, .strict "offset" .int, .optional "length" .int (.intLit 1)]
      .string,
    ofString "md5" .string,
    ofString "bin2hex" .string,
    .function "ord" [.required "character" .string] .int,
    .function "chr" [.strict "codepoint" .int] .string,
    extremum "max",
    extremum "min",
    numeric "floor",
    numeric "ceil",
    numeric "round",
    numeric "sqrt",
    ofValue "intval" .string .int,
    ofValue "floatval" .string .float,
    ofValue "strval" .int .string,
    ofValue "boolval" .int .bool,
    ofValue "is_numeric" .string .bool,
    ofValue "count" (.array .int) .int,
    .function "array_reverse" [.required "array" (.array .int)] (.array .int),
    .function "implode"
      [.required "separator" .string, .required "array" (.array .string)] .string ]

end Catalog

end TypedPhp
