import PugTemplate.Text.Blank
/-!
# Nesting of scripts

How deep inside of brackets, strings, comments and regular expressions a script is after each of its
characters. This finds the end of an expression inside a template without reading the expression:
the first closing bracket that is not nested ends it.

Whether a slash starts a regular expression or divides is guessed from what stands before it.
-/

namespace PugTemplate
namespace Nesting

/-- One level of nesting. -/
inductive Context where
  | lineComment
  | blockComment
  | singleQuote
  | doubleQuote
  | templateQuote
  | regex
  /-- A bracket, known by the character that closes it. -/
  | bracket (closer : Char)
  deriving DecidableEq, Repr

/-! ## Before a slash -/

/-- A character that an operand cannot end with, or the start of the text. -/
def isPunctuator : Option Char → Bool
  | none => true
  | some c =>
    ['.', '(', ')', ';', ',', '{', '}', '[', ']', ':', '?', '~', '%', '&', '*', '+', '-', '/', '<',
      '>', '^', '|', '!', '='].contains c

/-- The words after which an expression may start. -/
def keywords : List String :=
  ["if", "in", "do", "var", "for", "new", "try", "let", "this", "else", "case", "void", "with",
    "enum", "while", "break", "catch", "throw", "const", "yield", "class", "super", "return", "typeof",
    "delete", "switch", "export", "import", "default", "finally", "extends", "function", "continue",
    "debugger", "package", "private", "interface", "instanceof", "implements", "protected", "public",
    "static"]

def isKeyword (word : String) : Bool := keywords.contains word

def isKeywordPart (c : Char) : Bool := c.isAlphanum || c == '_'

/-- A slash starts a regular expression after these characters, of which the last comes first. -/
def startsRegex (before : List Char) : Bool :=
  let recent := before.dropWhile Text.isBlank
  match recent.head? with
  | some ')' => false
  | last =>
    if isPunctuator last then true
    else
      let word := recent.takeWhile isKeywordPart
      !word.isEmpty && isKeyword (String.ofList word.reverse)

/-! ## States -/

/-- The nesting after a text. -/
structure State where
  /-- What is open, the innermost level first. -/
  stack : List Context := []
  /-- The last character was the slash that started a regular expression. -/
  regexStart : Bool := false
  /-- The last character was a backslash that escapes the next one. -/
  escaped : Bool := false
  /-- The last character of a template was a dollar sign. -/
  dollar : Bool := false
  /-- All characters so far, the last one first. -/
  taken : List Char := []
  /-- The characters outside of comments, the last one first. -/
  history : List Char := []
  /-- The last character that was not refused. -/
  last : Option Char := none
  deriving DecidableEq, Repr, Inhabited

namespace State

def current (s : State) : Option Context := s.stack.head?

def depth (s : State) : Nat := s.stack.length

def text (s : State) : String := String.ofList s.taken.reverse

def isString (s : State) : Bool :=
  s.current == some .singleQuote || s.current == some .doubleQuote ||
    s.current == some .templateQuote

def isComment (s : State) : Bool :=
  s.current == some .lineComment || s.current == some .blockComment

/-- Something is open. A line comment that is the only thing open can be left out of account. -/
def isNesting (s : State) (ignoreLineComment : Bool) : Bool :=
  !(ignoreLineComment && s.stack == [.lineComment]) && !s.stack.isEmpty

def enter (s : State) (c : Context) : State := { s with stack := c :: s.stack }

def leave (s : State) : State := { s with stack := s.stack.tail }

/-- A character inside of a string or a regular expression that ends with `terminator`. -/
def inQuotes (s : State) (terminator c : Char) : State :=
  if c == terminator && !s.escaped then s.leave
  else { s with escaped := c == '\\' && !s.escaped }

def inTemplate (s : State) (c : Char) : State :=
  if c == '\x60' && !s.escaped then { s.leave with dollar := false }
  else if c == '\\' && !s.escaped then { s with escaped := true, dollar := false }
  else if c == '$' && !s.escaped then { s with dollar := true }
  else if c == '{' && s.dollar then s.enter (.bracket '}')
  else { s with escaped := false, dollar := false }

/-- A character of code. A closing bracket that does not fit is refused. -/
def inCode (s : State) (c : Char) : Option State :=
  let afterSlash := s.history.head? == some '/'
  if c == '(' then some (s.enter (.bracket ')'))
  else if c == '[' then some (s.enter (.bracket ']'))
  else if c == '{' then some (s.enter (.bracket '}'))
  else if c == ')' || c == ']' || c == '}' then
    if s.current == some (.bracket c) then some s.leave else none
  else if c == '/' && afterSlash then
    some { s.enter .lineComment with history := s.history.tail }
  else if c == '*' && afterSlash then
    some { s.enter .blockComment with history := s.history.tail }
  else if c == '/' && startsRegex s.history then some { s.enter .regex with regexStart := true }
  else if c == '\'' then some (s.enter .singleQuote)
  else if c == '"' then some (s.enter .doubleQuote)
  else if c == '\x60' then some (s.enter .templateQuote)
  else some s

/-- A character that is next to the slash of a regular expression, and may make a comment of it. -/
def settleRegex (s : State) (c : Char) : State :=
  if s.regexStart then
    let s := if c == '/' || c == '*' then s.leave else s
    { s with regexStart := false }
  else s

/-- A character at the innermost level. -/
def inContext (s : State) (c : Char) : Option State :=
  match s.current with
  | some .lineComment => some (if c == '\n' then s.leave else s)
  | some .blockComment => some (if s.last == some '*' && c == '/' then s.leave else s)
  | some .singleQuote => some (s.inQuotes '\'' c)
  | some .doubleQuote => some (s.inQuotes '"' c)
  | some .regex => some (s.inQuotes '/' c)
  | some .templateQuote => some (s.inTemplate c)
  | some (.bracket _) => s.inCode c
  | none => s.inCode c

/-- The nesting after one more character, or nothing if it is refused. -/
def push (s : State) (c : Char) : Option State :=
  (inContext (s.settleRegex c) c).map fun next =>
    { next with
      taken := c :: s.taken
      history := if next.isComment || s.isComment then next.history else c :: next.history
      last := some c }

/-- The nesting after a character that was refused: it is remembered, and changes nothing else. -/
def refuse (s : State) (c : Char) : State := { s with taken := c :: s.taken }

/-- Takes one more character and goes on even if it is refused, with the state that is there by then.
The flag tells whether it was accepted. -/
def feed (s : State) (c : Char) : Bool × State :=
  let settled := { s.settleRegex c with taken := c :: s.taken }
  match settled.inContext c with
  | some next =>
    (true, { next with
      history := if next.isComment || s.isComment then next.history else c :: next.history
      last := some c })
  | none => (false, settled)

end State

/-! ## Scans -/

/-- Why a scan fails, with the text before the place where it does. -/
inductive Fault where
  /-- A closing bracket does not fit. -/
  | mismatched (found : Char) (before : List Char)
  /-- The text ends before the delimiter. -/
  | unfinished (before : List Char)
  deriving DecidableEq, Repr

namespace Fault

def message : Fault → String
  | .mismatched found _ => "Mismatched Bracket: " ++ String.singleton found
  | .unfinished _ => "The end of the string was reached with no closing bracket found."

def before : Fault → List Char
  | .mismatched _ before => before
  | .unfinished before => before

end Fault

/-- The nesting after more text; `before` is the part of it that has been read, the last one first.
-/
def scanFrom (s : State) (before : List Char) : List Char → Except Fault State
  | [] => .ok s
  | c :: cs =>
    match s.push c with
    | some s => scanFrom s (c :: before) cs
    | none => .error (.mismatched c before.reverse)

def scan (cs : List Char) : Except Fault State := scanFrom {} [] cs

/-- What a scan up to a delimiter leaves out of account. -/
structure UntilOptions where
  /-- The delimiter counts inside of brackets, strings and comments too. -/
  ignoreNesting : Bool := false
  /-- The delimiter counts inside of a line comment too. -/
  ignoreLineComment : Bool := false

/-- Reads on to the first place where `stop` accepts the rest of the text and nothing is open. -/
def scanUntilFrom (stop : List Char → Bool) (options : UntilOptions) (s : State) :
    List Char → Except Fault (List Char × List Char)
  | [] => .error (.unfinished s.taken.reverse)
  | c :: cs =>
    if (options.ignoreNesting || !s.isNesting options.ignoreLineComment) && stop (c :: cs) then
      .ok (s.taken.reverse, c :: cs)
    else
      match s.push c with
      | some s => scanUntilFrom stop options s cs
      | none => .error (.mismatched c s.taken.reverse)

/-- Cuts a text at the first place where `stop` accepts its rest and nothing is open. -/
def scanUntil (stop : List Char → Bool) (options : UntilOptions) (cs : List Char) :
    Except Fault (List Char × List Char) :=
  scanUntilFrom stop options {} cs

/-- Cuts a text at the first character `c` that is not nested. -/
def scanUntilChar (c : Char) (cs : List Char) : Except Fault (List Char × List Char) :=
  scanUntil (fun rest => rest.head? == some c) {} cs

end Nesting
end PugTemplate
