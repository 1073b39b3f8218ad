import TypedPhp.Syntax.Program

set_option autoImplicit false

/-!
# The support file

Every generated program requires this file. It defines how values are dumped, which bodies have
run, and the operations on numbers that never raise an error.
-/

namespace TypedPhp.Support

/-- The name of the support file. -/
def fileName : String := "fuzzlib.php"

/-- The lines of the support file. -/
def fileLines : List String :=
  [ "<?php",
    "",
    "/**",
    " * @param mixed $value",
    " */",
    "function fuzz_dump(int $line, $value) \x7b",
    "  echo \"line $line: \";",
    "  var_dump($value);",
    "\x7d",
    "",
    "#ifndef KPHP",
    "function tuple(...$args) \x7b",
    "  return $args;",
    "\x7d",
    "#endif",
    "",
    "class FuzzVisited \x7b",
    "  /** @var bool[] */",
    "  public static $names = [];",
    "\x7d",
    "",
    "function fuzz_visited(string $name): bool \x7b",
    "  if (isset(FuzzVisited::$names[$name])) \x7b",
    "    return true;",
    "  \x7d",
    "  FuzzVisited::$names[$name] = true;",
    "  return false;",
    "\x7d",
    "",
    "/**",
    " * @kphp-template $x",
    " * @kphp-template $y",
    " */",
    "function fuzz_safe_div($x, $y) \x7b",
    "  if ($y > 0 || $y < 0) \x7b",
    "    return $x / $y;",
    "  \x7d",
    "  echo \"invalid argument in /\\n\";",
    "  return 0;",
    "\x7d",
    "",
    "/**",
    " * @kphp-template $x",
    " * @kphp-template $y",
    " */",
    "function fuzz_safe_mod($x, $y) \x7b",
    "  if ($y > 0 || $y < 0) \x7b",
    "    return $x % $y;",
    "  \x7d",
    "  echo \"invalid argument in %\\n\";",
    "  return 0;",
    "\x7d",
    "",
    "function fuzz_float_eq(float $x, float $y): bool \x7b",
    "  if ($x == $y) \x7b",
    "    return true;",
    "  \x7d",
    "  if (is_nan($x) || is_nan($y) || is_infinite($x) || is_infinite($y)) \x7b",
    "    return false;",
    "  \x7d",
    "  return abs($x - $y) <= 1e-9 * max(1.0, abs($x), abs($y));",
    "\x7d" ]

/-- The files that every generated program requires. -/
def files : List SupportFile := [⟨fileName, String.join (fileLines.map (· ++ "\n"))⟩]

end TypedPhp.Support
