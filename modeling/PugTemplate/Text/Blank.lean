/-!
# Blank characters

The characters that count as white space in a template: the code points with the Unicode property
`White_Space`. Trimming removes exactly these.
-/

namespace PugTemplate
namespace Text

/-- White space, in the sense of Unicode. -/
def isBlank (c : Char) : Bool :=
  let n := c.toNat
  (9 ≤ n && n ≤ 13) || n == 0x20 || n == 0x85 || n == 0xA0 || n == 0x1680 ||
    (0x2000 ≤ n && n ≤ 0x200A) || n == 0x2028 || n == 0x2029 || n == 0x202F || n == 0x205F ||
    n == 0x3000

def trimStart (cs : List Char) : List Char := cs.dropWhile isBlank

def trimEnd (cs : List Char) : List Char := (cs.reverse.dropWhile isBlank).reverse

def trim (cs : List Char) : List Char := trimEnd (trimStart cs)

def isBlankText (cs : List Char) : Bool := cs.all isBlank

/-- Drops one carriage return from the end of a line. -/
def dropReturn (line : List Char) : List Char :=
  match line.reverse with
  | '\r' :: front => front.reverse
  | _ => line

def splitLines : List Char → List (List Char)
  | [] => [[]]
  | '\n' :: cs => [] :: splitLines cs
  | c :: cs =>
    match splitLines cs with
    | [] => [[c]]
    | line :: rest => (c :: line) :: rest

/-- The lines of a text. A line feed ends a line, so a text that ends in one has no empty last line;
a carriage return before it belongs to the line end. -/
def lines (cs : List Char) : List (List Char) :=
  let pieces := splitLines cs
  let kept := if pieces.getLast? == some [] then pieces.dropLast else pieces
  match cs.getLast? with
  | some '\n' => kept.map dropReturn
  | _ => kept.dropLast.map dropReturn ++ kept.getLast?.toList

/-! ## Strings -/

def trimString (s : String) : String := String.ofList (trim s.toList)

end Text
end PugTemplate
