import PugTemplate.Diagnostic.Category
import PugTemplate.Text.Blank
/-!
# Diagnostics

What is wrong with a template, and where. A cause says what, and is the only thing that knows the
words for it.
-/

namespace PugTemplate

/-- A place in a template. Columns count characters. -/
structure Position where
  line : Nat := 1
  column : Nat := 1
  deriving DecidableEq, Repr, Inhabited

inductive Cause where
  /-- A bracket was to be closed where none is open. -/
  | noBracket
  /-- An expression is not one, for this reason. -/
  | badExpression (reason : String)
  | unclosedInterpolation
  | unclosedBracket (closer : Char)
  | mismatchedBracket (found : Char)
  | invalidId (name : String)
  | classAfterDash
  | classAfterDigit
  | invalidClass (name : String)
  | noExtendsPath
  | malformedExtends
  | noIncludePath
  | malformedInclude
  | noCaseExpression
  | noWhenExpression
  | defaultWithExpression
  | elseCondition
  | noWhileExpression
  | malformedEach
  | dashedEach
  /-- A quoted attribute name is followed by this. -/
  | afterQuotedName (found : Char)
  /-- An exclamation mark in an attribute list is followed by this. -/
  | noEqualsSign (found : Option Char)
  | mixedIndentation
  | inconsistentIndentation (outer inner : Nat)
  | unexpectedText (start : String)
  | interpolationTooDeep (limit : Nat)
  | endOfStream
  | expectedToken (expected found : String)
  | unknownToken (found : String)
  | unexpectedTokenType (found : String)
  | unexpectedInCase (found : String)
  | unexpectedInTag (found : String) (slashAllowed : Bool)
  | blockInBufferedCode
  | blockOutsideMixin
  | mixinWithoutBody (name : String)
  | rawIncludeBlock
  | duplicateId
  | duplicateAttribute (name : String)
  | noNodeHooks (context : String)
  | noTagHooks (context : String)
  | claimedTwice (context kind : String)
  /-- A tag that has no end tag has content. -/
  | selfClosingContent (name : String)
  /-- A node that no code can be written for, with its file and line. -/
  | unsupportedNode (file : String) (line : Nat) (type : String)
  | other (category : Category) (message : String)
  deriving DecidableEq, Repr, Inhabited

namespace Cause

def category : Cause → Category
  | .noBracket => .assertFailed
  | .badExpression _ => .syntaxError
  | .unclosedInterpolation => .noEndBracket
  | .unclosedBracket _ => .noEndBracket
  | .mismatchedBracket _ => .bracketMismatch
  | .invalidId _ => .invalidId
  | .classAfterDash => .invalidClassName
  | .classAfterDigit => .invalidClassName
  | .invalidClass _ => .invalidClassName
  | .noExtendsPath => .noExtendsPath
  | .malformedExtends => .malformedExtends
  | .noIncludePath => .noIncludePath
  | .malformedInclude => .malformedInclude
  | .noCaseExpression => .noCaseExpression
  | .noWhenExpression => .noWhenExpression
  | .defaultWithExpression => .defaultWithExpression
  | .elseCondition => .elseCondition
  | .noWhileExpression => .noWhileExpression
  | .malformedEach => .malformedEach
  | .dashedEach => .malformedEach
  | .afterQuotedName _ => .invalidKeyCharacter
  | .noEqualsSign _ => .invalidKeyCharacter
  | .mixedIndentation => .invalidIndentation
  | .inconsistentIndentation _ _ => .inconsistentIndentation
  | .unexpectedText _ => .unexpectedText
  | .interpolationTooDeep _ => .interpolationTooDeep
  | .endOfStream => .endOfStream
  | .expectedToken _ _ => .invalidToken
  | .unknownToken _ => .invalidToken
  | .unexpectedTokenType _ => .invalidToken
  | .unexpectedInCase _ => .invalidToken
  | .unexpectedInTag _ _ => .invalidToken
  | .blockInBufferedCode => .blockInBufferedCode
  | .blockOutsideMixin => .blockOutsideMixin
  | .mixinWithoutBody _ => .mixinWithoutBody
  | .rawIncludeBlock => .rawIncludeBlock
  | .duplicateId => .duplicateId
  | .duplicateAttribute _ => .duplicateAttribute
  | .noNodeHooks _ => .pluginConflict
  | .noTagHooks _ => .pluginConflict
  | .claimedTwice _ _ => .pluginConflict
  | .selfClosingContent _ => .selfClosingContent
  | .unsupportedNode _ _ _ => .unsupportedNodeType
  | .other category _ => category

def message : Cause → String
  | .noBracket => "The start character should be \"(\", \"\x7b\" or \"[\""
  | .badExpression reason => "Syntax Error: " ++ reason
  | .unclosedInterpolation => "End of line was reached with no closing bracket for interpolation."
  | .unclosedBracket closer =>
    "The end of the string reached with no closing bracket " ++ String.singleton closer ++ " found."
  | .mismatchedBracket found => "Mismatched Bracket: " ++ String.singleton found
  | .invalidId name => "\"" ++ name ++ "\" is not a valid ID."
  | .classAfterDash =>
    "If a class name begins with a \"-\" or \"--\", it must be followed by a letter or underscore."
  | .classAfterDigit => "Class names must begin with \"-\", \"_\" or a letter."
  | .invalidClass name =>
    "\"" ++ name ++ "\" is not a valid class name.  Class names must begin with \"-\", \"_\" or " ++
      "a letter and can only contain \"_\", \"-\", a-z and 0-9."
  | .noExtendsPath => "missing path for extends"
  | .malformedExtends => "malformed extends"
  | .noIncludePath => "missing path for include"
  | .malformedInclude => "malformed include"
  | .noCaseExpression => "missing expression for case"
  | .noWhenExpression => "missing expression for when"
  | .defaultWithExpression => "default should not have an expression"
  | .elseCondition => "`else` cannot have a condition, perhaps you meant `else if`"
  | .noWhileExpression => "missing expression for while"
  | .malformedEach => "malformed each"
  | .dashedEach =>
    "Pug each and for should no longer be prefixed with a dash (\"-\"). They are pug keywords " ++
      "and not part of JavaScript."
  | .afterQuotedName found =>
    "Unexpected character \"" ++ String.singleton found ++
      "\" expected ` `, `\\n`, `\\t`, `,`, `!` or `=`"
  | .noEqualsSign found =>
    "Unexpected character " ++ (found.map String.singleton).getD "" ++ " expected `=`"
  | .mixedIndentation => "Invalid indentation, you can use tabs or spaces but not both"
  | .inconsistentIndentation outer inner =>
    "Inconsistent indentation. Expecting either " ++ toString outer ++ " or " ++ toString inner ++
      " spaces/tabs."
  | .unexpectedText start => "unexpected text \"" ++ start ++ "\""
  | .interpolationTooDeep limit =>
    "Tag interpolation is nested more than " ++ toString limit ++ " levels deep"
  | .endOfStream => "Cannot read past the end of a stream"
  | .expectedToken expected found => "expected \"" ++ expected ++ "\", but got \"" ++ found ++ "\""
  | .unknownToken found => "unexpected token \"" ++ found ++ "\""
  | .unexpectedTokenType found => "Unexpected token type: " ++ found
  | .unexpectedInCase found =>
    "Unexpected token \"" ++ found ++ "\", expected \"when\", \"default\" or \"newline\""
  | .unexpectedInTag found slashAllowed =>
    "Unexpected token `" ++ found ++ "` expected `text`, `interpolated-code`, `code`, `:`" ++
      (if slashAllowed then ", `slash`" else "") ++ ", `newline` or `eos`"
  | .blockInBufferedCode => "Buffered code cannot have a block attached to it"
  | .blockOutsideMixin => "Anonymous blocks are not allowed unless they are part of a mixin."
  | .mixinWithoutBody name => "Mixin " ++ name ++ " declared without body"
  | .rawIncludeBlock => "Raw inclusion cannot contain a block"
  | .duplicateId => "Duplicate attribute \"id\" is not allowed."
  | .duplicateAttribute name => "Duplicate attribute \"" ++ name ++ "\" is not allowed."
  | .noNodeHooks context => "Context " ++ context ++ " does not accept node hooks"
  | .noTagHooks context => "Context " ++ context ++ " does not accept tag hooks"
  | .claimedTwice context kind =>
    "Multiple plugin handlers found for context \"" ++ context ++ "\", token type \"" ++ kind ++
      "\""
  | .selfClosingContent name =>
    name ++ " is a self closing element: <" ++ name ++ "/> but contains nested content."
  | .unsupportedNode file line type =>
    "A child of Block (" ++ file ++ ":" ++ toString line ++ ") is of type " ++ type ++
      ", which is not supported by the code generator."
  | .other _ message => message

end Cause

/-- A cause with its place. A diagnostic at line zero belongs to no line of a template. -/
structure Diagnostic where
  cause : Cause
  position : Position
  file : Option String := none
  help : Option String := none
  deriving DecidableEq, Repr, Inhabited

namespace Diagnostic

/-- A diagnostic that belongs to no line. -/
def unlocated (cause : Cause) (file : Option String) : Diagnostic := ⟨cause, ⟨0, 0⟩, file, none⟩

def category (d : Diagnostic) : Category := d.cause.category

/-- The diagnostic in words, without its place. -/
def message (d : Diagnostic) : String := d.cause.message

/-- The file as it is shown. -/
def fileName (d : Diagnostic) : String := d.file.getD "Pug"

def summary (d : Diagnostic) : String :=
  if d.position.line == 0 then d.fileName ++ ": " ++ d.message
  else d.fileName ++ ":" ++ toString d.position.line ++ ":" ++ toString d.position.column ++ ": " ++
    d.message

/-! ## Excerpts -/

structure Palette where
  strong : String := ""
  dim : String := ""
  accent : String := ""
  reset : String := ""

def Palette.plain : Palette := {}

def Palette.terminal : Palette :=
  ⟨"\x1b[1;31m", "\x1b[2m", "\x1b[1;38;5;73m", "\x1b[0m"⟩

/-- Fills a text with spaces on the left, up to a width. -/
def padLeft (width : Nat) (s : String) : String :=
  String.ofList (List.replicate (width - s.length) ' ') ++ s

/-- The width of line numbers next to an excerpt: two digits at least. -/
def numberWidth (line count : Nat) : Nat := max 2 (toString (min (line + 1) count)).length

/-- One line of an excerpt; the marked one is followed by a caret under the column. -/
def excerptLine (p : Palette) (at_ : Position) (width number : Nat) (text : List Char) : String :=
  let marked := number == at_.line
  p.dim ++ (if marked then ">" else " ") ++ padLeft (width - 1) (toString number) ++ " |" ++
    p.reset ++ " " ++ String.ofList text ++ "\n" ++
    (if marked then
      p.dim ++ padLeft width "" ++ " |" ++ p.reset ++ " " ++
        String.ofList (List.replicate (at_.column - 1) ' ') ++ p.strong ++ "^" ++ p.reset ++ "\n"
    else "")

/-- The lines around a place: two before it and one after it. -/
def excerpt (p : Palette) (at_ : Position) (source : String) : String :=
  let lines := Text.lines source.toList
  let width := numberWidth at_.line lines.length
  let first := max 1 (at_.line - 2)
  let count := min (at_.line + 1) lines.length + 1 - first
  let numbered := (lines.drop (first - 1)).take count |>.zipIdx first
  p.dim ++ padLeft width "" ++ " |" ++ p.reset ++ "\n" ++
    String.join (numbered.map fun (text, number) => excerptLine p at_ width number text)

/-- Advice, with its lines under each other. -/
def helpLines (p : Palette) (help : String) : String :=
  match Text.lines help.toList with
  | [] => "\n"
  | first :: rest =>
    "\n " ++ p.accent ++ "help:" ++ p.reset ++ " " ++ String.ofList first ++ "\n" ++
      String.join (rest.map fun line => "       " ++ String.ofList line ++ "\n")

/-- The diagnostic with an excerpt of the source. -/
def render (p : Palette) (d : Diagnostic) (source : String) : String :=
  "\n " ++ p.dim ++ "file:" ++ p.reset ++ " " ++ d.fileName ++ ":" ++ toString d.position.line ++
    ":" ++ toString d.position.column ++ "\n" ++
    p.strong ++ "error[" ++ d.category.code ++ "]:" ++ p.reset ++ " " ++ d.message ++ "\n" ++
    (if d.position.line == 0 then "" else excerpt p d.position source) ++
    ((d.help.map (helpLines p)).getD "") ++ "\n"

end Diagnostic
end PugTemplate
