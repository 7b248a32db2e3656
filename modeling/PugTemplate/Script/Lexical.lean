/-!
# Literals of scripts

Where strings and regular expressions of JavaScript end, by the characters that they are made of.
-/

namespace PugTemplate
namespace Script

def isLineBreak (c : Char) : Bool :=
  c == '\n' || c == '\r' || c.toNat == 0x2028 || c.toNat == 0x2029

def isHexDigit (c : Char) : Bool :=
  c.isDigit || ('a' ≤ c && c ≤ 'f') || ('A' ≤ c && c ≤ 'F')

/-! ## Strings -/

/-- The characters after a backslash form an escape: `\x` takes two hexadecimal digits, `\u` four,
or any number of them between braces. -/
def isEscape : List Char → Bool
  | 'x' :: a :: b :: _ => isHexDigit a && isHexDigit b
  | 'x' :: _ => false
  | 'u' :: '{' :: cs =>
    !(cs.takeWhile isHexDigit).isEmpty && (cs.dropWhile isHexDigit).head? == some '}'
  | 'u' :: a :: b :: c :: d :: _ => isHexDigit a && isHexDigit b && isHexDigit c && isHexDigit d
  | 'u' :: _ => false
  | [] => false
  | _ => true

/-- Reads a string up to the quote that ends it. -/
def readString (quote : Char) : List Char → Option (List Char × List Char)
  | [] => none
  | '\\' :: '\r' :: '\n' :: cs =>
    (readString quote cs).map fun (body, rest) => ('\\' :: '\r' :: '\n' :: body, rest)
  | '\\' :: c :: cs =>
    if isEscape (c :: cs) then
      (readString quote cs).map fun (body, rest) => ('\\' :: c :: body, rest)
    else none
  | c :: cs =>
    if c == quote then some ([], cs)
    else if c == '\\' || c == '\n' || c == '\r' then none
    else (readString quote cs).map fun (body, rest) => (c :: body, rest)

/-! ## Regular expressions -/

/-- Reads a regular expression after its first slash, up to the slash that ends it. A slash inside
brackets is an ordinary character. -/
def readRegexBody : Bool → List Char → Option (List Char × List Char)
  | _, [] => none
  | inClass, '\\' :: c :: cs =>
    if isLineBreak c then none
    else (readRegexBody inClass cs).map fun (body, rest) => ('\\' :: c :: body, rest)
  | inClass, c :: cs =>
    if isLineBreak c || c == '\\' then none
    else if c == '/' && !inClass then some ([], cs)
    else
      let inside := if c == '[' then true else if c == ']' then false else inClass
      (readRegexBody inside cs).map fun (body, rest) => (c :: body, rest)

end Script
end PugTemplate
