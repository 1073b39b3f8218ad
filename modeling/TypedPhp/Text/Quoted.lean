set_option autoImplicit false

/-!
# Quoted byte strings

The double-quoted form of an arbitrary byte string. The bytes are read from the left: where
they begin with the encoding of a character, that character is written, escaped if the quoted
form needs it; any other byte is written as a hexadecimal escape. The text of a literal is
therefore always a character string, and no control character occurs in it.
-/

namespace TypedPhp.Text

/-- The character whose encoding the first bytes would be, by the width that the first byte
announces. -/
def announcedChar (bytes : List UInt8) : Char :=
  let lead := (bytes.getD 0 0).toNat
  let tail (i : Nat) : Nat := (bytes.getD i 0).toNat % 64
  Char.ofNat <|
    if lead < 0x80 then lead
    else if lead < 0xe0 then lead % 32 * 64 + tail 1
    else if lead < 0xf0 then (lead % 16 * 64 + tail 1) * 64 + tail 2
    else ((lead % 8 * 64 + tail 1) * 64 + tail 2) * 64 + tail 3

/-- The character whose encoding the bytes begin with, if there is one. -/
def leadingChar? (bytes : List UInt8) : Option Char :=
  let c := announcedChar bytes
  if (String.utf8EncodeChar c).isPrefixOf bytes then some c else none

/-- A hexadecimal digit in lower case. -/
def hexDigit (n : Nat) : Char := Nat.digitChar (n % 16)

/-- A byte as a hexadecimal escape. -/
def hexEscape (b : Nat) : List Char := ['\\', 'x', hexDigit (b / 16), hexDigit b]

/-- A character inside quotes: a control character, a quote, a backslash or a dollar is
escaped, by name where it has one. -/
def escapeChar (c : Char) : List Char :=
  if c = '\n' then ['\\', 'n']
  else if c = '\r' then ['\\', 'r']
  else if c = '\t' then ['\\', 't']
  else if c = '\x0b' then ['\\', 'v']
  else if c = '\x1b' then ['\\', 'e']
  else if c = '\x0c' then ['\\', 'f']
  else if c = '"' ∨ c = '\\' ∨ c = '$' then ['\\', c]
  else if c.toNat < 0x20 ∨ c.toNat = 0x7f then hexEscape c.toNat
  else [c]

/-- The bytes between quotes, the first `skip` of them already written as part of a
character. -/
def escapeFrom : (skip : Nat) → List UInt8 → List Char
  | _, [] => []
  | skip + 1, _ :: rest => escapeFrom skip rest
  | 0, b :: rest =>
    match leadingChar? (b :: rest) with
    | some c => escapeChar c ++ escapeFrom (c.utf8Size - 1) rest
    | none => hexEscape b.toNat ++ escapeFrom 0 rest

/-- The text between the quotes. -/
def escape (bytes : List UInt8) : List Char := escapeFrom 0 bytes

/-- The quoted form of a byte string. -/
def quote (bytes : List UInt8) : List Char := '"' :: escape bytes ++ ['"']

end TypedPhp.Text
