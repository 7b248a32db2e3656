import PugTemplate.Token.Lexer.Attributes
import PugTemplate.Token.Lexer.Text
/-!
# The rules of the lexer

Each rule looks at the front of the remaining text. It reads something, or leaves the text to the
next rule, or finds that the template is wrong.
-/

namespace PugTemplate
namespace Setting

/-! ## Ends -/

/-- The end of the template closes all indentations. -/
def eos (env : Setting) (s : Lexer) : Step :=
  if !s.rest.isEmpty then .ok (false, s)
  else if env.interpolated then .error (env.diagnostic .unclosedInterpolation s)
  else
    let closed := s.indents.foldl (fun s _ => s.push .outdent) s
    .ok (true, { closed.push .eos with ended := true })

/-- The end of the tag interpolation that is being read. -/
def endInterpolation (env : Setting) (s : Lexer) : Step :=
  match s.rest with
  | ']' :: rest =>
    .ok (if env.interpolated then (true, { s with rest, ended := true }) else (false, s))
  | _ => .ok (false, s)

/-! ## Words that stand alone -/

/-- A word that must end its line. -/
def loneWord (word : String) (kind : TokenKind) (s : Lexer) : Bool × Lexer :=
  match Pattern.afterWord? word s.rest with
  | none => (false, s)
  | some _ =>
    match s.takeToLineEnd word.toList with
    | some (at_, next) => (true, next.pushAt kind at_)
    | none => (false, s)

def doctype (s : Lexer) : Step :=
  match Pattern.afterWord? "doctype" s.rest with
  | none => .ok (false, s)
  | some rest =>
    let name := Pattern.line (rest.dropWhile (· == ' '))
    let whole := Pattern.line s.rest
    .ok (true, ((s.push (.doctype (String.ofList name))).consume whole.length).advanceColumn
      whole.length)

/-- Nothing may follow the word for the case that is left. -/
def defaultCase (env : Setting) (s : Lexer) : Step :=
  match loneWord "default" .default s with
  | (true, s) => .ok (true, s)
  | (false, s) =>
    if Pattern.atKeyword "default" s.rest then .error (env.diagnostic .defaultWithExpression s)
    else .ok (false, s)

/-! ## Words with an expression -/

/-- A word, spaces and a value, cut off from the text. -/
def wordValue? (word : String) (isPart : Char → Bool) (s : Lexer) : Option (List Char × Lexer) := do
  let rest ← Pattern.afterWord? word s.rest
  let (spaces, value) ← Pattern.spacedValue? isPart rest
  let width := word.length + spaces.length + value.length
  pure (value, (s.consume width).advanceColumn width)

/-- The place where a value starts that has just been read. -/
def valueStart (s : Lexer) (value : List Char) : Position := ⟨s.line, s.column - value.length⟩

def case (env : Setting) (s : Lexer) : Step :=
  match wordValue? "case" Pattern.isOnLine s with
  | some (value, next) => do
    env.requireExpression value (valueStart next value)
    pure (true, next.pushAt (.case (String.ofList value)) s.position)
  | none =>
    if Pattern.atKeyword "case" s.rest then .error (env.diagnostic .noCaseExpression s)
    else .ok (false, s)

/-- A character of a choice's value before the first colon. -/
def isWhenPart (c : Char) : Bool := c != ':' && c != '\n'

/-- A value that was cut at a colon goes on behind it as long as something is open in it. -/
def continueWhen (env : Setting) :
    Nat → List Char → Lexer → Except Diagnostic (List Char × Lexer)
  | 0, value, s => .ok (value, s)
  | n + 1, value, s =>
    match Nesting.scan value with
    | .error fault => .error (env.scanDiagnostic fault s)
    | .ok state =>
      if !(state.isNesting false || state.isString) then .ok (value, s)
      else
        match s.rest with
        | ':' :: cs =>
          let part := cs.takeWhile isWhenPart
          if part.isEmpty then .ok (value, s)
          else
            let width := part.length + 1
            continueWhen env n (value ++ ':' :: part) ((s.consume width).advanceColumn width)
        | _ => .ok (value, s)

def when (env : Setting) (s : Lexer) : Step :=
  match wordValue? "when" isWhenPart s with
  | some (value, next) => do
    let (value, next) ← env.continueWhen (next.rest.length + 1) value next
    env.requireExpression value (valueStart next value)
    pure (true, next.pushAt (.when (String.ofList value)) s.position)
  | none =>
    if Pattern.atKeyword "when" s.rest then .error (env.diagnostic .noWhenExpression s)
    else .ok (false, s)

def whileLoop (env : Setting) (s : Lexer) : Step :=
  match wordValue? "while" Pattern.isOnLine s with
  | some (value, next) => do
    env.requireExpression value (valueStart next value)
    pure (true, next.pushAt (.while (String.ofList value)) s.position)
  | none =>
    if Pattern.atKeyword "while" s.rest then .error (env.diagnostic .noWhileExpression s)
    else .ok (false, s)

/-- The words that start a condition, the longer ones before their beginnings. -/
def conditionWords : List String := ["if", "unless", "else if", "else"]

def conditional (env : Setting) (s : Lexer) : Step :=
  match conditionWords.find? fun word => Pattern.atKeyword word s.rest with
  | none => .ok (false, s)
  | some word => do
    let whole := Pattern.line s.rest
    let tail := whole.drop word.length
    let source := Text.trim tail
    let lead := tail.length - (Text.trimStart tail).length
    let base : Position := ⟨s.line, s.column + word.length + lead⟩
    let next := (s.consume whole.length).advanceColumn whole.length
    let kind ←
      match word with
      | "if" => do
        env.requireExpression source base
        pure (TokenKind.if (String.ofList source))
      | "unless" => do
        env.requireExpression source base
        pure (TokenKind.if ("!(" ++ String.ofList source ++ ")"))
      | "else if" => do
        env.requireExpression source base
        pure (TokenKind.elseIf (String.ofList source))
      | _ =>
        if source.isEmpty then pure (TokenKind.else "")
        else .error (env.diagnostic .elseCondition s)
    pure (true, next.pushAt kind s.position)

def loopHead? (cs : List Char) : Option Pattern.EachHead :=
  ((Pattern.afterWord? "each" cs).bind Pattern.eachHead?).orElse fun _ =>
    (Pattern.afterWord? "for" cs).bind Pattern.eachHead?

def each (env : Setting) (s : Lexer) : Step :=
  match loopHead? s.rest with
  | some head => do
    let whole := (Pattern.line s.rest).length
    let next := s.consume whole
    env.requireExpression head.list (next.advanceColumn (whole - head.list.length)).position
    let kind := TokenKind.each (String.ofList head.item) (head.key.map String.ofList)
      (String.ofList head.list)
    pure (true, (next.advanceColumn whole).pushAt kind s.position)
  | none =>
    if Pattern.atKeyword "each" s.rest || Pattern.atKeyword "for" s.rest then
      .error (env.diagnostic .malformedEach s)
    else if Pattern.atDashedEach s.rest then .error (env.diagnostic .dashedEach s)
    else .ok (false, s)

/-! ## Other files and named blocks -/

/-- The path of another file. Blanks are read even if there is no path. -/
def path (s : Lexer) : Step :=
  match s.rest with
  | ' ' :: cs =>
    let value := Pattern.line cs
    if value.isEmpty then .ok (false, s)
    else
      match s.takeToLineEnd (' ' :: value) with
      | none => .ok (false, s)
      | some (at_, next) =>
        let value := Text.trim value
        if value.isEmpty then .ok (false, next)
        else .ok (true, next.pushAt (.path (String.ofList value)) at_)
  | _ => .ok (false, s)

/-- A character that may follow a word which takes a path. -/
def endsPathWord (others : List Char) (rest : List Char) : Bool :=
  match rest.head? with
  | none => true
  | some c => c == ' ' || c == '\n' || others.contains c

def extendsPath (env : Setting) (s : Lexer) : Step :=
  let word := if (Pattern.afterWord? "extends" s.rest).isSome then "extends" else "extend"
  match Pattern.afterWord? word s.rest with
  | none => .ok (false, s)
  | some rest =>
    if endsPathWord [] rest then do
      let next := (s.consume word.length).advanceColumn word.length
      let (matched, next) ← env.call .path path (next.pushAt .extends s.position)
      if matched then pure (true, next) else .error (env.diagnostic .noExtendsPath next)
    else if Pattern.atKeyword "extends" s.rest || Pattern.atKeyword "extend" s.rest then
      .error (env.diagnostic .malformedExtends s)
    else .ok (false, s)

/-- A block with a name; a comment may follow it. -/
def namedBlock (content : List Char → Option (List Char)) (mode : BlockMode) (s : Lexer) : Step :=
  match content s.rest with
  | none => .ok (false, s)
  | some after =>
    let value := Pattern.beforeComment (Pattern.line after)
    let name := Text.trim value
    if name.isEmpty then .ok (false, s)
    else
      let width := s.rest.length - after.length + value.length
      let next := (s.consume width).advanceColumn width
      .ok (true, next.pushAt (.block (String.ofList name) mode) s.position)

/-- A filter, by its name. Below a line of its own, the text for it follows. -/
def filter (env : Setting) (inInclude : Bool) (s : Lexer) : Step :=
  match s.rest with
  | ':' :: cs =>
    match Pattern.name? cs with
    | none => .ok (false, s)
    | some name => do
      let width := name.length + 1
      let next := (s.consume width).advanceColumn width
      let (_, next) ← env.call .attributes env.attributes
        (next.pushAt (.filter (String.ofList name)) s.position)
      if inInclude then pure (true, next)
      else
        let next ← env.callPipelessText { next with interpolating := false }
        pure (true, next)
  | _ => .ok (false, s)

def includeFile (env : Setting) (s : Lexer) : Step :=
  match Pattern.afterWord? "include" s.rest with
  | none => .ok (false, s)
  | some rest =>
    if endsPathWord [':'] rest then do
      let next := ((s.push .include).consume 7).advanceColumn 7
      let next ← env.repeatCall (.filter true) (env.filter true) (rest.length + 1) next
      let (matched, next) ← env.call .path path next
      if matched then pure (true, next)
      else
        match next.rest.head? with
        | none => .error (env.diagnostic .noIncludePath next)
        | some c =>
          if c == ' ' || c == '\n' then .error (env.diagnostic .noIncludePath next)
          else .error (env.unexpectedText next)
    else if Pattern.atKeyword "include" s.rest then .error (env.diagnostic .malformedInclude s)
    else .ok (false, s)

/-! ## Mixins -/

/-- The definition of a mixin, or a call without arguments. -/
def mixin (s : Lexer) : Step :=
  match Pattern.mixinHead? s.rest with
  | none => .ok (false, s)
  | some head =>
    let parameters := head.parameters.filter fun ps => !ps.isEmpty
    let next := (s.consume head.width).advanceColumn head.width
    let kind := .mixin (String.ofList head.name) (parameters.map String.ofList)
    .ok (true, next.pushAt kind s.position)

/-- A text between parentheses after a call is a list of attributes: it starts with a name and an
equals sign. -/
def looksLikeAttributes (cs : List Char) : Bool :=
  let cs := Text.trimStart cs
  match Pattern.name? cs with
  | none => false
  | some name => ((cs.drop name.length).dropWhile (· == ' ')).head? == some '='

/-- The name of the mixin that is called: a name, or an expression. -/
def callName (env : Setting) (s : Lexer) : Except Diagnostic (Option (String × Lexer)) :=
  match s.rest with
  | '+' :: cs =>
    let spacing := cs.takeWhile Text.isBlank
    let rest := cs.dropWhile Text.isBlank
    match Pattern.name? rest with
    | some name =>
      let width := 1 + spacing.length + name.length
      .ok (some (String.ofList name, (s.consume width).advanceColumn width))
    | none =>
      match rest with
      | '#' :: '{' :: _ => do
        let skip := 2 + spacing.length
        let source ← env.bracketed s skip
        env.requireExpression source ⟨s.line, s.column + skip⟩
        let whole := s.rest.take (skip + source.length + 2)
        let name := "#\x7b" ++ String.ofList source ++ "\x7d"
        pure (some (name, (s.consume whole.length).skipOver whole))
      | _ => .ok none
  | _ => .ok none

def callArguments (env : Setting) (s : Lexer) : Except Diagnostic (Option String × Lexer) :=
  let spaces := (s.rest.takeWhile (· == ' ')).length
  match s.rest.drop spaces with
  | '(' :: _ => do
    let source ← env.bracketed s spaces
    if looksLikeAttributes source then pure (none, s)
    else
      let next := (s.consume (spaces + source.length + 2)).advanceColumn (spaces + 1)
      env.requireExpression ('[' :: source ++ [']']) ⟨next.line, next.column - 1⟩
      pure (some (String.ofList source), (next.skipOver source).advanceColumn 1)
  | _ => .ok (none, s)

def mixinCall (env : Setting) (s : Lexer) : Step := do
  match ← env.callName s with
  | none => pure (false, s)
  | some (name, next) =>
    let (arguments, next) ← env.callArguments next
    pure (true, next.pushAt (.call name arguments) s.position)

/-! ## Tags -/

/-- A tag whose name is an expression. -/
def interpolation (env : Setting) (s : Lexer) : Step :=
  match s.rest with
  | '#' :: '{' :: _ => do
    let source ← env.bracketed s 1
    let next := ((s.push (.interpolation (String.ofList source))).consume
      (source.length + 3)).advanceColumn 2
    env.requireExpression source next.position
    pure (true, (next.skipOver source).advanceColumn 1)
  | _ => .ok (false, s)

def tag (s : Lexer) : Step :=
  match Pattern.tagName? s.rest with
  | none => .ok (false, s)
  | some name =>
    .ok (true, ((s.push (.tag (String.ofList name))).consume name.length).advanceColumn name.length)

def idName (env : Setting) (s : Lexer) : Step :=
  match s.rest with
  | '#' :: cs =>
    match Pattern.name? cs with
    | some name =>
      let width := name.length + 1
      .ok (true, ((s.push (.id (String.ofList name))).consume width).advanceColumn width)
    | none => .error (env.diagnostic (.invalidId (String.ofList (Pattern.badName cs))) s)
  | _ => .ok (false, s)

/-- What is wrong with the name of a class. -/
def classCause (cs : List Char) : Cause :=
  match cs.head? with
  | some '-' => .classAfterDash
  | some c =>
    if c.isDigit then .classAfterDigit else .invalidClass (String.ofList (Pattern.badName cs))
  | none => .invalidClass ""

def className (env : Setting) (s : Lexer) : Step :=
  match s.rest with
  | '.' :: cs =>
    match Pattern.className? cs with
    | some name =>
      let width := name.length + 1
      .ok (true, ((s.push (.class (String.ofList name))).consume width).advanceColumn width)
    | none => .error (env.diagnostic (classCause cs) s)
  | _ => .ok (false, s)

def spreadAttributes (env : Setting) (s : Lexer) : Step :=
  if Pattern.atKeyword "&attributes" s.rest then do
    let next := (s.consume 11).advanceColumn 11
    let source ← env.bracketed next 0
    let whole := next.rest.take (source.length + 2)
    let kind := TokenKind.spreadAttributes (String.ofList source)
    pure (true, ((next.pushAt kind s.position).consume whole.length).skipOver whole)
  else .ok (false, s)

/-- A block of text below a tag. -/
def dot (env : Setting) (s : Lexer) : Step :=
  match loneWord "." .dot s with
  | (true, s) => do pure (true, ← env.callPipelessText s)
  | (false, s) => .ok (false, s)

/-- The slash of a tag without content. -/
def slash (s : Lexer) : Step :=
  match s.rest with
  | '/' :: rest => .ok (true, { (s.push .slash).advanceColumn 1 with rest })
  | _ => .ok (false, s)

/-- The colon before a tag on the same line. -/
def colon (s : Lexer) : Step :=
  match s.rest with
  | ':' :: cs =>
    let spaces := (cs.takeWhile (· == ' ')).length
    if spaces == 0 then .ok (false, s)
    else .ok (true, ((s.push .colon).consume (spaces + 1)).advanceColumn (spaces + 1))
  | _ => .ok (false, s)

/-! ## Code, comments and markup -/

/-- A block of code below a dash. -/
def blockCode (env : Setting) (s : Lexer) : Step :=
  match loneWord "-" .blockCode s with
  | (true, s) => do pure (true, ← env.callPipelessText { s with interpolating := false })
  | (false, s) => .ok (false, s)

/-- The marks before code: how many characters they have, whether the value is escaped, and whether
it is written at all. -/
def codeMarks? : List Char → Option (Nat × Bool × Bool)
  | '!' :: '=' :: _ => some (2, false, true)
  | '=' :: _ => some (1, true, true)
  | '-' :: _ => some (1, false, false)
  | _ => none

/-- The blanks before code, and the code. Of a line that has only blanks, the last one is the code.
-/
def codeLine? (cs : List Char) : Option (Nat × List Char) :=
  let gap := cs.takeWhile Pattern.isGap
  let source := Pattern.line (cs.dropWhile Pattern.isGap)
  if !source.isEmpty then some (gap.length, source)
  else gap.getLast?.map fun c => (gap.length - 1, [c])

/-- The code up to the end of the interpolation that it stands in. -/
def codeSource (env : Setting) (source : List Char) (s : Lexer) : Except Diagnostic (List Char) :=
  if env.interpolated then
    match Nesting.scanUntilChar ']' source with
    | .ok (source, _) => .ok source
    | .error fault => .error (env.scanDiagnostic fault (s.advanceColumn fault.before.length))
  else .ok source

def code (env : Setting) (s : Lexer) : Step :=
  match codeMarks? s.rest with
  | none => .ok (false, s)
  | some (marks, escape, buffer) =>
    match codeLine? (s.rest.drop marks) with
    | none => .ok (false, s)
    | some (gap, line) => do
      let inside := s.advanceColumn (marks + gap)
      let source ← env.codeSource line inside
      if buffer then env.requireExpression source inside.position
      let next := (inside.consume (marks + gap + source.length)).advanceColumn source.length
      pure (true, next.pushAt (.code (String.ofList source) escape buffer) s.position)

/-- Markup that is passed on as it stands. -/
def textHtml (env : Setting) (s : Lexer) : Step :=
  match s.rest with
  | '<' :: _ => do
    let text := Pattern.line s.rest
    pure (true, ← env.addText .html text (s.consume text.length))
  | _ => .ok (false, s)

/-- A comment, with the text below it. -/
def comment (env : Setting) (s : Lexer) : Step :=
  match s.rest with
  | '/' :: '/' :: cs => do
    let whole := Pattern.line s.rest
    let buffer := cs.head? != some '-'
    let text := whole.drop (if buffer then 2 else 3)
    let next := (s.push (.comment (String.ofList text) buffer)).consume whole.length
    let next := { next with interpolating := buffer }.advanceColumn whole.length
    pure (true, ← env.callPipelessText next)
  | _ => .ok (false, s)

/-! ## Indentation -/

/-- Closes indentations that are wider than a width, each of which must have been opened before. -/
def closeIndents (env : Setting) (width : Nat) : List Nat → Lexer → Except Diagnostic Lexer
  | [], s => .ok s
  | current :: outer, s =>
    if current ≤ width then .ok s
    else
      let next := outer.headD 0
      if next < width then .error (env.diagnostic (.inconsistentIndentation next current) s)
      else
        closeIndents env width outer
          ({ s with column := next + 1, indents := outer }.push .outdent)

/-- The start of a line: its indentation against the one of the line before. -/
def indent (env : Setting) (s : Lexer) : Step :=
  let (width, s) := s.indentation?
  match width with
  | none => .ok (false, s)
  | some width =>
    let s := (s.advanceLine 1).consume (width + 1)
    match s.rest with
    | ' ' :: _ => .error (env.diagnostic .mixedIndentation s)
    | '\t' :: _ => .error (env.diagnostic .mixedIndentation s)
    | '\n' :: _ => .ok (true, { s with interpolating := true })
    | _ => do
      let next ←
        if width < s.indent then env.closeIndents width s.indents s
        else if s.indent < width then
          pure { s.push (.indent width) with column := width + 1, indents := width :: s.indents }
        else pure { s.push .newline with column := s.indent + 1 }
      pure (true, { next with interpolating := true })

/-! ## All rules -/

/-- The rules in the order in which they are tried. -/
def rules (env : Setting) : List (Rule × (Lexer → Step)) :=
  [(.blank, Lexer.blank),
    (.eos, env.eos),
    (.endInterpolation, env.endInterpolation),
    (.yield, fun s => .ok (loneWord "yield" .yield s)),
    (.doctype, doctype),
    (.interpolation, env.interpolation),
    (.case, env.case),
    (.when, env.when),
    (.default, env.defaultCase),
    (.extends, env.extendsPath),
    (.append, namedBlock (Pattern.blockCommand? "append") .append),
    (.prepend, namedBlock (Pattern.blockCommand? "prepend") .prepend),
    (.block, namedBlock (Pattern.blockLine? "block") .replace),
    (.mixinBlock, fun s => .ok (loneWord "block" .mixinBlock s)),
    (.include, env.includeFile),
    (.mixin, mixin),
    (.call, env.mixinCall),
    (.conditional, env.conditional),
    (.each, env.each),
    (.while, env.whileLoop),
    (.tag, tag),
    (.filter false, env.filter false),
    (.blockCode, env.blockCode),
    (.code, env.code),
    (.id, env.idName),
    (.dot, env.dot),
    (.className, env.className),
    (.attributes, env.attributes),
    (.spreadAttributes, env.spreadAttributes),
    (.indent, env.indent),
    (.text, env.text),
    (.textHtml, env.textHtml),
    (.comment, env.comment),
    (.slash, slash),
    (.colon, colon)]

/-- Tries rules in turn until one has read something. -/
def tryRules (env : Setting) : List (Rule × (Lexer → Step)) → Lexer → Step
  | [], s => .error (env.unexpectedText s)
  | (rule, own) :: rules, s => do
    let (matched, s) ← env.call rule own s
    if matched then pure (true, s) else tryRules env rules s

/-- Reads one construct at the front of the text. -/
def advance (env : Setting) (s : Lexer) : Step := env.tryRules env.rules s

end Setting
end PugTemplate
