import PugTemplate.Token.Lexer.Basic
/-!
# Attribute lists

A list of attributes in parentheses is read one character at a time. An attribute ends at a comma,
or at white space that is followed by the start of another attribute.
-/

namespace PugTemplate

/-- The part of an attribute that is being read. -/
inductive AttributePart where
  | name
  /-- A name in quotes of this kind. -/
  | quotedName (quote : Char)
  /-- A value, and what is open in it. -/
  | value (nesting : Nesting.State)
  deriving DecidableEq, Repr, Inhabited

/-- The attribute that is being read. -/
structure AttributeReader where
  part : AttributePart := .name
  name : List Char := []
  value : List Char := []
  /-- The value is to be escaped. -/
  escape : Bool := true
  /-- The line of the current character; the attribute itself keeps the line where it starts. -/
  line : Nat
  /-- The column where the attribute starts. -/
  start : Nat
  /-- The column where its value starts. -/
  valueStart : Nat
  deriving Repr, Inhabited

namespace AttributeReader

def isSpace (c : Char) : Bool := c == ' ' || c == '\n' || c == '\t'

/-- White space at the front, if something follows it: the first character that does. -/
def afterSpace? : List Char → Option Char
  | c :: cs => if isSpace c then (cs.dropWhile isSpace).head? else none
  | [] => none

def isUnnamed (r : AttributeReader) : Bool := Text.isBlankText r.name

/-- A character that goes on with the name before it, across white space. -/
def continuesName (c : Char) : Bool := c == '=' || c == '!' || c == ','

/-- A character that can be the first one of another attribute after a value. -/
def startsAttribute (c : Char) : Bool :=
  !Nesting.isPunctuator (some c) || c == '"' || c == '\'' || c == ':'

/-- The attribute ends at the front of a text that is not empty. -/
def endsAt (r : AttributeReader) (validator : Validator) (text : List Char) : Bool :=
  !r.isUnnamed &&
    match r.part with
    | .name =>
      match afterSpace? text with
      | some next => !continuesName next
      | none => text.head? == some ','
    | .quotedName _ => false
    | .value nesting =>
      !(nesting.isNesting false || nesting.isString) &&
        (match afterSpace? text with
          | some next => startsAttribute next
          | none => text.head? == some ',') &&
        validator.accepts (String.ofList r.value)

/-- Drops one quote from either end. -/
def stripQuotes (name : List Char) : List Char :=
  dropEndQuote (dropQuote name)
where
  dropQuote : List Char → List Char
    | c :: cs => if c == '"' || c == '\'' then cs else c :: cs
    | [] => []
  dropEndQuote (cs : List Char) : List Char := (dropQuote cs.reverse).reverse

def token (r : AttributeReader) : TokenKind :=
  let value := Text.trim r.value
  .attribute (String.ofList (stripQuotes (Text.trim r.name)))
    (if value.isEmpty then .bare else .expression (String.ofList value)) r.escape

def next (r : AttributeReader) : AttributeReader :=
  { r with part := .name, name := [], value := [], escape := false }

/-- Notes where the attribute starts, as long as it has no name. -/
def mark (r : AttributeReader) (s : Lexer) : AttributeReader :=
  if r.isUnnamed then { r with start := s.column } else r

/-- A reader for the value that starts after an equals sign. -/
def startValue (r : AttributeReader) (escape : Bool) (s : Lexer) : AttributeReader :=
  { r with part := .value {}, escape, valueStart := s.column + 1 }

/-- Moves the place over a character of the list. -/
def pass (r : AttributeReader) (s : Lexer) (c : Char) : AttributeReader × Lexer :=
  if c == '\n' then
    let line := r.line + 1
    ({ r with line }, { s with column := 1, line := if r.isUnnamed then line else s.line })
  else (r, s.advanceColumn 1)

end AttributeReader

namespace Setting

open AttributeReader

/-- Adds the attribute that has been read. -/
def finishAttribute (env : Setting) (r : AttributeReader) (s : Lexer) :
    Except Diagnostic Lexer := do
  unless Text.isBlankText r.value do
    env.requireExpression r.value ⟨s.line, r.valueStart⟩
  pure { s.pushAt r.token ⟨s.line, r.start⟩ with line := r.line }

/-- A character that belongs to the attribute. An exclamation mark is read by `readAttributes`. -/
def takeAttributeChar (env : Setting) (r : AttributeReader) (s : Lexer) (c : Char)
    (after : List Char) : Except Diagnostic AttributeReader :=
  match r.part with
  | .quotedName quote =>
    if c == quote then
      match after.head? with
      | some found =>
        if isSpace found || continuesName found then .ok { r with part := .name }
        else .error (env.diagnostic (.afterQuotedName found) s)
      | none => .ok { r with part := .name }
    else .ok { r with name := r.name ++ [c] }
  | .name =>
    if r.name.isEmpty && (c == '"' || c == '\'') then .ok { r with part := .quotedName c }
    else if c == '=' then .ok (r.startValue true s)
    else .ok { r with name := r.name ++ [c] }
  | .value nesting =>
    match nesting.push c with
    | some nesting => .ok { r with part := .value nesting, value := r.value ++ [c] }
    | none => .error (env.diagnostic (.mismatchedBracket c) s)

/-- The tokens of the attributes in a text. -/
def readAttributes (env : Setting) : AttributeReader → Lexer → List Char → Except Diagnostic Lexer
  | r, s, [] => if (r.mark s).isUnnamed then .ok s else env.finishAttribute (r.mark s) s
  | r, s, c :: cs =>
    let r := r.mark s
    if r.endsAt env.validator (c :: cs) then do
      let s ← env.finishAttribute r s
      let (r, s) := r.next.pass s c
      readAttributes env r s cs
    else if r.part == .name && c == '!' then
      let s := s.advanceColumn 1
      match cs with
      | '=' :: cs => readAttributes env (r.startValue false s) (s.advanceColumn 1) cs
      | _ => .error (env.diagnostic (.noEqualsSign cs.head?) s)
    else do
      let r ← env.takeAttributeChar r s c cs
      let (r, s) := r.pass s c
      readAttributes env r s cs

/-- A list of attributes in parentheses. -/
def attributes (env : Setting) (s : Lexer) : Step :=
  match s.rest with
  | '(' :: _ => do
    let s := s.push .startAttributes
    let body ← env.bracketed s 0
    let inside := (s.consume (body.length + 2)).advanceColumn 1
    let r : AttributeReader :=
      { line := s.line, start := inside.column, valueStart := inside.column }
    let after ← env.readAttributes r inside body
    let after := { after with line := s.line + body.count '\n' }
    pure (true, (after.push .endAttributes).advanceColumn 1)
  | _ => .ok (false, s)

end Setting
end PugTemplate
