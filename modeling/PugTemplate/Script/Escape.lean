import PugTemplate.Text.Quoted
/-!
# Escapes in script strings

The text that the inside of a string literal stands for.
-/

namespace PugTemplate
namespace Script

open Text.Quoted (hexValue?)

def charOf? (n : Nat) : Option Char := if n.isValidChar then some (Char.ofNat n) else none

/-- Where in a string the decoder is: in its text, or between the braces of an escape whose digits
so far, if there are any, have this value. -/
inductive DecodeMode where
  | text
  | braces (value : Option Nat)

/-- Decodes the characters of a string literal. An octal escape, and an escape of a code point that
is no character, have no meaning here. -/
def decode : DecodeMode → List Char → Option (List Char)
  | .braces value, '}' :: cs => do
    let c ← charOf? (← value)
    (decode .text cs).map (c :: ·)
  | .braces value, c :: cs => do
    let digit ← hexValue? c
    let n := 16 * value.getD 0 + digit
    if 0x10FFFF < n then none else decode (.braces (some n)) cs
  | .braces _, [] => none
  | .text, [] => some []
  | .text, '\\' :: 'x' :: a :: b :: cs => do
    let c ← charOf? (16 * (← hexValue? a) + (← hexValue? b))
    (decode .text cs).map (c :: ·)
  | .text, '\\' :: 'u' :: '{' :: cs => decode (.braces none) cs
  | .text, '\\' :: 'u' :: a :: b :: c :: d :: cs => do
    let high := 16 * (← hexValue? a) + (← hexValue? b)
    let low := 16 * (← hexValue? c) + (← hexValue? d)
    let c ← charOf? (256 * high + low)
    (decode .text cs).map (c :: ·)
  | .text, '\\' :: '\r' :: '\n' :: cs => decode .text cs
  | .text, '\\' :: e :: cs =>
    if e == 'n' then (decode .text cs).map ('\n' :: ·)
    else if e == 't' then (decode .text cs).map ('\t' :: ·)
    else if e == 'r' then (decode .text cs).map ('\r' :: ·)
    else if e == 'b' then (decode .text cs).map ('\x08' :: ·)
    else if e == 'f' then (decode .text cs).map ('\x0c' :: ·)
    else if e == 'v' then (decode .text cs).map ('\x0b' :: ·)
    else if e == '0' && !(cs.head?.map Char.isDigit).getD false then
      (decode .text cs).map ('\x00' :: ·)
    else if e == 'x' || e == 'u' || e.isDigit then none
    else if e == '\r' || e == '\n' || e.toNat == 0x2028 || e.toNat == 0x2029 then decode .text cs
    else (decode .text cs).map (e :: ·)
  | .text, c :: cs => if c == '\\' then none else (decode .text cs).map (c :: ·)

/-- The text that the inside of a string literal stands for. -/
def unescape (body : String) : Option String :=
  (decode .text body.toList).map String.ofList

end Script
end PugTemplate
