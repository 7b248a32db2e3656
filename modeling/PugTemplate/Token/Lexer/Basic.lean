import PugTemplate.Script.Judge
import PugTemplate.Script.Nesting
import PugTemplate.Token.Basic
import PugTemplate.Token.Pattern
/-!
# States of the lexer
-/

namespace PugTemplate

inductive Rule where
  | advance
  | blank
  | eos
  | endInterpolation
  | yield
  | doctype
  | interpolation
  | case
  | when
  | default
  | extends
  | append
  | prepend
  | block
  | mixinBlock
  | include
  | mixin
  | call
  | conditional
  | each
  | while
  | tag
  | filter (inInclude : Bool)
  | blockCode
  | code
  | id
  | dot
  | className
  | attributes
  | spreadAttributes
  | indent
  | text
  | textHtml
  | comment
  | slash
  | colon
  | path
  | pipelessText
  deriving DecidableEq, Repr, Inhabited

inductive IndentStyle where
  | tabs
  | spaces
  deriving DecidableEq, Repr, Inhabited

/-- The state of a lexer. -/
structure Lexer where
  /-- The text that is left. -/
  rest : List Char
  /-- The line of its first character. -/
  line : Nat := 1
  /-- The column of its first character. -/
  column : Nat := 1
  /-- The widths of the open indentations, the innermost first. -/
  indents : List Nat := []
  /-- What indentation is made of, once a line has shown it. -/
  style : Option IndentStyle := none
  /-- Code and tags may stand inside of text. -/
  interpolating : Bool := true
  /-- The tokens so far, the last one first. -/
  tokens : List Token := []
  /-- There is nothing more to read. -/
  ended : Bool := false
  deriving Repr, Inhabited

/-- What a hook does with a rule that it is offered. -/
inductive LexerClaim where
  /-- The rule is left to others. -/
  | decline
  | fail (d : Diagnostic)
  /-- The hook has read something; after that, text may be read as well. -/
  | accept (next : Lexer) (thenText : Bool)

/-- An extension of the lexer: a function of the rule, the file and the state. -/
abbrev LexerHook := Rule → Option String → Lexer → LexerClaim

/-- What stays the same while a text is read. -/
structure Setting where
  file : Option String := none
  validator : Validator := .acceptAll
  hooks : List LexerHook := []
  /-- The text is the inside of a tag interpolation. -/
  interpolated : Bool := false
  /-- Reads the inside of a tag interpolation, unless it would be nested too deep. -/
  nested : Option (Lexer → Except Diagnostic Lexer) := none

/-- The result of a rule: whether it has read something, and the state after it. -/
abbrev Step := Except Diagnostic (Bool × Lexer)

/-- How deep tag interpolations may be nested. -/
def maxInterpolationDepth : Nat := 64

namespace Lexer

/-! ## Moves -/

def position (s : Lexer) : Position := ⟨s.line, s.column⟩

/-- Drops characters from the text without moving the place. -/
def consume (s : Lexer) (n : Nat) : Lexer := { s with rest := s.rest.drop n }

/-- Moves the place down by lines, to the first column if there are any. -/
def advanceLine (s : Lexer) (n : Nat) : Lexer :=
  { s with line := s.line + n, column := if n == 0 then s.column else 1 }

def advanceColumn (s : Lexer) (n : Nat) : Lexer := { s with column := s.column + n }

/-- Moves the place over a text that may hold line breaks. -/
def skipOver (s : Lexer) (text : List Char) : Lexer :=
  let breaks := text.count '\n'
  let last := text.reverse.takeWhile Pattern.isOnLine
  (s.advanceLine breaks).advanceColumn last.length

def pushAt (s : Lexer) (kind : TokenKind) (at_ : Position) : Lexer :=
  { s with tokens := ⟨kind, at_⟩ :: s.tokens }

/-- Adds a token at the current place. -/
def push (s : Lexer) (kind : TokenKind) : Lexer := s.pushAt kind s.position

/-- The width of the innermost indentation. -/
def indent (s : Lexer) : Nat := s.indents.headD 0

end Lexer

namespace Setting

/-! ## Diagnostics -/

def diagnosticAt (env : Setting) (cause : Cause) (at_ : Position) : Diagnostic :=
  { cause, position := at_, file := env.file }

def diagnostic (env : Setting) (cause : Cause) (s : Lexer) : Diagnostic :=
  env.diagnosticAt cause s.position

/-- The remaining text fits no rule. -/
def unexpectedText (env : Setting) (s : Lexer) : Diagnostic :=
  env.diagnostic (.unexpectedText (String.ofList (s.rest.take 5))) s

/-- A scan that failed inside of an interpolation. -/
def scanDiagnostic (env : Setting) (fault : Nesting.Fault) (s : Lexer) : Diagnostic :=
  match fault with
  | .mismatched found _ => env.diagnostic (.mismatchedBracket found) s
  | .unfinished _ => env.diagnostic .unclosedInterpolation s

/-! ## Shared readers -/

/-- Demands that a text that starts at a place is an expression. -/
def requireExpression (env : Setting) (source : List Char) (base : Position) :
    Except Diagnostic Unit :=
  match env.validator (String.ofList source) with
  | none => .ok ()
  | some fault =>
    let at_ : Position :=
      if fault.line == 0 then ⟨base.line, base.column + fault.column⟩
      else ⟨base.line + fault.line, 1 + fault.column⟩
    .error (env.diagnosticAt (.badExpression fault.message) at_)

def closer? : Char → Option Char
  | '(' => some ')'
  | '{' => some '}'
  | '[' => some ']'
  | _ => none

/-- The text inside of the bracket that stands after `skip` characters. The place must be that of
the first character that is left. -/
def bracketed (env : Setting) (s : Lexer) (skip : Nat) : Except Diagnostic (List Char) :=
  match (s.rest.drop skip).head?.bind closer? with
  | none => .error (env.diagnostic .noBracket s)
  | some closer =>
    match Nesting.scanUntilChar closer (s.rest.drop (skip + 1)) with
    | .ok (inside, _) => .ok inside
    | .error (.mismatched found before) =>
      .error (env.diagnostic (.mismatchedBracket found)
        (s.skipOver (s.rest.take (skip + 1) ++ before)))
    | .error (.unfinished _) =>
      .error (env.diagnostic (.unclosedBracket closer) (s.advanceColumn skip))

end Setting

namespace Lexer

/-- The number of tabs or spaces after the line break that is next. The first line that has any
settles what indentation is made of. -/
def indentation? (s : Lexer) : Option Nat × Lexer :=
  match s.rest with
  | '\n' :: cs =>
    let tabs := (cs.takeWhile (· == '\t')).length
    let spaces := (cs.takeWhile (· == ' ')).length
    match s.style with
    | some .tabs => (some tabs, s)
    | some .spaces => (some spaces, s)
    | none =>
      if 0 < tabs then (some tabs, { s with style := some .tabs })
      else if 0 < spaces then (some spaces, { s with style := some .spaces })
      else (some 0, s)
  | _ => (none, s)

/-- The indentation of a line, in the characters that indentation is made of. -/
def lineIndent (s : Lexer) (line : List Char) : Nat :=
  let mark := if s.style == some .tabs then '\t' else ' '
  (line.takeWhile (· == mark)).length

/-! ## Lines -/

/-- Cuts off a match that must end its line, or stand before a colon. The place of the match is the
one after the spaces that it starts with. -/
def takeToLineEnd (s : Lexer) (whole : List Char) : Option (Position × Lexer) :=
  (Pattern.endOfLine? (s.rest.drop whole.length)).map fun rest =>
    let spaces := (whole.takeWhile (· == ' ')).length
    let moved := s.advanceColumn spaces
    (moved.position, { moved.advanceColumn (whole.length - spaces) with rest })

end Lexer
end PugTemplate
