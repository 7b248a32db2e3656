/-!
# Quoted text

Text between double quotes, as it stands in a data file and in a script. Both write a quote, a
backslash and the control characters with a backslash. A script also escapes the characters that
could end a script element or a line in it, so that generated code may be placed in a page.
-/

namespace PugTemplate
namespace Text
namespace Quoted

/-- A hexadecimal digit, with letters in lower case. -/
def hexDigit (n : Nat) : Char :=
  if n < 10 then Char.ofNat ('0'.toNat + n) else Char.ofNat ('a'.toNat + (n - 10))

/-- The value of a hexadecimal digit, in either case. -/
def hexValue? (c : Char) : Option Nat :=
  if c.isDigit then some (c.toNat - '0'.toNat)
  else if 'a' ≤ c && c ≤ 'f' then some (c.toNat - 'a'.toNat + 10)
  else if 'A' ≤ c && c ≤ 'F' then some (c.toNat - 'A'.toNat + 10)
  else none

/-- A code point below 256 as four hexadecimal digits after `\u`. -/
def unicodeEscape (n : Nat) : List Char :=
  ['\\', 'u', '0', '0', hexDigit (n / 16 % 16), hexDigit (n % 16)]

/-- How one character is written in a string of a data file. -/
def plainEscape (c : Char) : List Char :=
  if c == '"' then ['\\', '"']
  else if c == '\\' then ['\\', '\\']
  else if c == '\n' then ['\\', 'n']
  else if c == '\r' then ['\\', 'r']
  else if c == '\t' then ['\\', 't']
  else if c == '\x08' then ['\\', 'b']
  else if c == '\x0c' then ['\\', 'f']
  else if c.toNat < 0x20 then unicodeEscape c.toNat
  else [c]

/-- How one character is written in a string of a script. -/
def scriptEscape (c : Char) : List Char :=
  if c == '<' then "\\u003C".toList
  else if c == '>' then "\\u003E".toList
  else if c == '/' then "\\u002F".toList
  else if c.toNat == 0x2028 then "\\u2028".toList
  else if c.toNat == 0x2029 then "\\u2029".toList
  else plainEscape c

/-- A string with each character written by `escape`, between quotes. -/
def quote (escape : Char → List Char) (s : String) : String :=
  String.ofList ('"' :: s.toList.flatMap escape ++ ['"'])

/-- A string literal of a script. -/
def script (s : String) : String := quote scriptEscape s

end Quoted
end Text
end PugTemplate
