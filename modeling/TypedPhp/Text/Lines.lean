set_option autoImplicit false

/-!
# Lines

Two ways to split a text into lines. `Text.lines` loses nothing: a line keeps the line feed,
carriage return or pair of both that ends it. `Text.rows` gives lines as they are read: without
the line feed that ends them, and without a carriage return just before it.
-/

namespace TypedPhp.Text

/-- The lines of a text, the first of which begins with the characters of `before`, last
first. -/
def linesFrom (before : List Char) : List Char → List (List Char)
  | [] => if before.isEmpty then [] else [before.reverse]
  | '\r' :: '\n' :: rest => ('\n' :: '\r' :: before).reverse :: linesFrom [] rest
  | c :: rest =>
    if c = '\n' || c = '\r' then (c :: before).reverse :: linesFrom [] rest
    else linesFrom (c :: before) rest

/-- The lines of a text, each with what ends it. -/
def lines (text : String) : List String := (linesFrom [] text.toList).map String.ofList

/-- Drops a carriage return from the front. -/
def dropReturn : List Char → List Char
  | '\r' :: rest => rest
  | cs => cs

/-- The rows of a text, the first of which begins with the characters of `before`, last
first. -/
def rowsFrom (before : List Char) : List Char → List (List Char)
  | [] => if before.isEmpty then [] else [before.reverse]
  | c :: rest =>
    if c = '\n' then (dropReturn before).reverse :: rowsFrom [] rest
    else rowsFrom (c :: before) rest

/-- The lines of a text without what ends them. -/
def rows (text : String) : List String := (rowsFrom [] text.toList).map String.ofList

/-- Whether some characters occur in a row in a text. -/
def occurs (pattern : List Char) : List Char → Bool
  | [] => pattern.isEmpty
  | c :: cs => pattern.isPrefixOf (c :: cs) || occurs pattern cs

end TypedPhp.Text
