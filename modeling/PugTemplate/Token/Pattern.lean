import PugTemplate.Text.Blank
import PugTemplate.Text.Word
/-!
# Patterns of template text

The shapes that the lexer looks for at the front of the remaining text. Each function here either
finds nothing or cuts the front of the text into the parts that matter.
-/

namespace PugTemplate
namespace Pattern

/-! ## Character classes -/

/-- An ASCII letter, digit or underscore. -/
def isPlainWord (c : Char) : Bool := c.isAlphanum || c == '_'

/-- A character of a mixin's, a filter's or an id's name. -/
def isNamePart (c : Char) : Bool := isPlainWord c || c == '-'

def isTagPart (c : Char) : Bool := isNamePart c || c == ':'

def isVariableStart (c : Char) : Bool := c.isAlpha || c == '_' || c == '$'

def isVariablePart (c : Char) : Bool := c.isAlphanum || c == '_' || c == '$'

/-- A letter of a class name, in either case. The long s and the Kelvin sign are letters here, since
they are other forms of `s` and `k`. -/
def isClassLetter (c : Char) : Bool := c.isAlpha || c.toNat == 0x17F || c.toNat == 0x212A

/-- A character that starts a class name, after at most two dashes. -/
def isClassStart (c : Char) : Bool := isClassLetter c || c == '_'

def isClassPart (c : Char) : Bool := isClassStart c || c.isDigit || c == '-'

/-- A space or a tab. -/
def isGap (c : Char) : Bool := c == ' ' || c == '\t'

def isOnLine (c : Char) : Bool := c != '\n'

/-! ## Words -/

def line (cs : List Char) : List Char := cs.takeWhile isOnLine

/-- What follows a word at the front of the text. -/
def afterWord? (word : String) (cs : List Char) : Option (List Char) :=
  word.toList.isPrefixOf? cs

/-- The text starts with a word that ends there. -/
def atKeyword (word : String) (cs : List Char) : Bool :=
  match afterWord? word cs with
  | some rest => Text.endsWord rest
  | none => false

/-- Spaces and then characters of a class, at least one of each. When nothing but spaces is there,
the last of them is the value. -/
def spacedValue? (isPart : Char → Bool) (cs : List Char) : Option (List Char × List Char) :=
  let spaces := cs.takeWhile (· == ' ')
  let value := (cs.dropWhile (· == ' ')).takeWhile isPart
  if !spaces.isEmpty && !value.isEmpty then some (spaces, value)
  else if 2 ≤ spaces.length then some (spaces.dropLast, [' '])
  else none

/-- The end of the line is next, after blanks that are dropped; or a colon is next. -/
def endOfLine? (cs : List Char) : Option (List Char) :=
  match cs with
  | ':' :: _ => some cs
  | _ =>
    match cs.dropWhile isGap with
    | [] => some []
    | '\n' :: rest => some ('\n' :: rest)
    | _ => none

/-! ## Names -/

/-- The name of a tag: it starts and ends with a word character. -/
def tagName? : List Char → Option (List Char)
  | [] => none
  | c :: cs =>
    if isPlainWord c then
      let run := cs.takeWhile isTagPart
      some (c :: (run.reverse.dropWhile fun c => c == '-' || c == ':').reverse)
    else none

/-- The name of a class after its dot. -/
def className? (cs : List Char) : Option (List Char) :=
  let dashes := (cs.take 2).takeWhile (· == '-')
  let rest := cs.drop dashes.length
  match rest with
  | c :: cs => if isClassStart c then some (dashes ++ c :: cs.takeWhile isClassPart) else none
  | [] => none

/-- A name of at least one character. -/
def name? (cs : List Char) : Option (List Char) :=
  let name := cs.takeWhile isNamePart
  if name.isEmpty then none else some name

def variableName? : List Char → Option (List Char × List Char)
  | [] => none
  | c :: cs =>
    if isVariableStart c then some (c :: cs.takeWhile isVariablePart, cs.dropWhile isVariablePart)
    else none

/-- What an id or a class could have been meant to be, for a diagnostic. -/
def badName : List Char → List Char
  | [] => []
  | c :: cs =>
    if c == '\n' then []
    else c :: cs.takeWhile fun c => !(isGap c || c == '(' || c == '#' || c == '.' || c == ':')

/-! ## Blocks and mixins -/

/-- Optional commas and a second variable after the first one. -/
def secondName? (cs : List Char) : Option (List Char × List Char) :=
  match cs.dropWhile (· == ' ') with
  | ',' :: rest => variableName? (rest.dropWhile (· == ' '))
  | _ => none

def variableNames? (cs : List Char) : Option (List Char × Option (List Char) × List Char) := do
  let (item, cs) ← variableName? cs
  match secondName? cs with
  | some (key, cs) => some (item, some key, cs)
  | none => some (item, none, cs)

/-- A part that at least one space comes before. -/
def afterSpaces? (cs : List Char) : Option (List Char) :=
  match cs with
  | ' ' :: rest => some (rest.dropWhile (· == ' '))
  | _ => none

/-- The head of a loop: one or two variables, `in`, and the rest of the line. -/
structure EachHead where
  item : List Char
  key : Option (List Char)
  list : List Char
  deriving DecidableEq, Repr

/-- Reads the head of a loop after its first word. -/
def eachHead? (cs : List Char) : Option EachHead := do
  let cs ← afterSpaces? cs
  let (item, key, cs) ← variableNames? cs
  let cs ← afterSpaces? cs
  let cs ← afterWord? "in" cs
  let spaces := cs.takeWhile (· == ' ')
  let list := line (cs.dropWhile (· == ' '))
  if !list.isEmpty then some ⟨item, key, list⟩
  else if !spaces.isEmpty then some ⟨item, key, [' ']⟩
  else none

/-- The text starts with a loop after a dash. -/
def atDashedEach (cs : List Char) : Bool :=
  match cs with
  | '-' :: cs =>
    let cs := cs.dropWhile (· == ' ')
    let head := (afterWord? "each" cs).orElse fun _ => afterWord? "for" cs
    (do
      let cs ← afterSpaces? (← head)
      let (_, _, cs) ← variableNames? cs
      let cs ← afterSpaces? cs
      let cs ← afterWord? "in" cs
      spacedValue? isOnLine cs).isSome
  | _ => false

/-- The last closing parenthesis of a line cuts it in two. -/
def beforeLastParenthesis? (line : List Char) : Option (List Char) :=
  match line.reverse.dropWhile (· != ')') with
  | _ :: front => some front.reverse
  | [] => none

/-- The head of a mixin's definition. -/
structure MixinHead where
  name : List Char
  parameters : Option (List Char)
  /-- How much of the text it is. -/
  width : Nat
  deriving DecidableEq, Repr

def mixinHead? (cs : List Char) : Option MixinHead := do
  let after ← afterWord? "mixin" cs
  let after ← afterSpaces? after
  let name ← name? after
  let after := after.drop name.length
  let (parameters, after) := match after.dropWhile (· == ' ') with
    | '(' :: rest => match beforeLastParenthesis? (line rest) with
      | some inside => (some inside, rest.drop (inside.length + 1))
      | none => (none, after)
    | _ => (none, after)
  let after := after.dropWhile (· == ' ')
  some ⟨name, parameters, cs.length - after.length⟩

/-- What a named block's line says, after the word that makes it one. -/
def blockLine? (word : String) (cs : List Char) : Option (List Char) := do
  let cs ← afterWord? word cs
  afterSpaces? cs

/-- The same, when the word `block` may come before it. -/
def blockCommand? (word : String) (cs : List Char) : Option (List Char) :=
  match blockLine? "block" cs with
  | some rest => (blockLine? word rest).orElse fun _ => blockLine? word cs
  | none => blockLine? word cs

/-- The part of a line before a comment. -/
def beforeComment : List Char → List Char
  | '/' :: '/' :: _ => []
  | c :: cs => c :: beforeComment cs
  | [] => []

end Pattern
end PugTemplate
