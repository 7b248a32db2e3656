import PugTemplate.Token.Lexer.Basic
/-!
# Text and what may stand inside of it
-/

namespace PugTemplate

/-! ## Markers -/

/-- What ends a run of plain text. -/
inductive Marker where
  | tag
  /-- The start of a tag interpolation that stands for itself. -/
  | literalTag
  /-- The end of the tag interpolation around this text. -/
  | close
  /-- An expression; its text is escaped or not. -/
  | code (escape : Bool)
  /-- The start of an expression that stands for itself. -/
  | literalCode (sigil : Char)
  deriving DecidableEq, Repr, Inhabited

/-- The marker at the front of a text, with the text after it. -/
def markerAt (interpolating interpolated : Bool) : List Char → Option (Marker × List Char)
  | ']' :: cs => if interpolated then some (.close, cs) else none
  | '#' :: '[' :: cs => if interpolating then some (.tag, cs) else none
  | '#' :: '{' :: cs => if interpolating then some (.code true, cs) else none
  | '!' :: '{' :: cs => if interpolating then some (.code false, cs) else none
  | '\\' :: '#' :: '[' :: cs => if interpolating then some (.literalTag, cs) else none
  | '\\' :: '#' :: '{' :: cs => if interpolating then some (.literalCode '#', cs) else none
  | '\\' :: '!' :: '{' :: cs => if interpolating then some (.literalCode '!', cs) else none
  | _ => none

/-- The plain text up to the first marker, and the marker with the text after it. -/
def nextMarker (interpolating interpolated : Bool) :
    List Char → List Char × Option (Marker × List Char)
  | [] => ([], none)
  | c :: cs =>
    match markerAt interpolating interpolated (c :: cs) with
    | some found => ([], some found)
    | none =>
      let (before, found) := nextMarker interpolating interpolated cs
      (c :: before, found)

/-! ## One line of text -/

/-- Plain text, or markup that is passed on as it stands. -/
inductive TextForm where
  | plain
  | html
  deriving DecidableEq, Repr, Inhabited

def TextForm.token (form : TextForm) (text : List Char) : TokenKind :=
  match form with
  | .plain => .text (String.ofList text)
  | .html => .textHtml (String.ofList text)

namespace Lexer

/-- Adds a text at the current place and moves behind it. -/
def pushText (s : Lexer) (form : TextForm) (text : List Char) : Lexer :=
  (s.push (form.token text)).advanceColumn text.length

/-- Adds a text, unless there is none. -/
def pushSomeText (s : Lexer) (form : TextForm) (text : List Char) : Lexer :=
  if text.isEmpty then s else s.pushText form text

/-- The state in which the inside of a tag interpolation is read. -/
def inner (s : Lexer) (text : List Char) : Lexer :=
  { rest := text, line := s.line, column := s.column }

/-- The state after a tag interpolation that was read by another lexer. -/
def afterInner (s inside : Lexer) : Lexer :=
  ({ s with tokens := inside.tokens ++ s.tokens, column := inside.column }.push
    .endInterpolation).advanceColumn 1

/-- The end of the interpolation that this lexer reads: what is left is for the lexer around it. -/
def close (s : Lexer) (after : List Char) : Lexer :=
  { s with ended := true, rest := after ++ s.rest }

end Lexer

namespace Setting

/-- An expression inside of text. Returns the text after it. -/
def addCode (env : Setting) (escape : Bool) (body : List Char) (s : Lexer) :
    Except Diagnostic (List Char × Lexer) :=
  let inside := s.advanceColumn 2
  match Nesting.scanUntilChar '}' body with
  | .ok (source, after) => do
    env.requireExpression source inside.position
    let token := TokenKind.interpolatedCode (String.ofList source) escape true
    pure (after.drop 1, (inside.pushAt token s.position).advanceColumn (source.length + 1))
  | .error (.unfinished _) => .error (env.diagnostic .unclosedInterpolation s)
  | .error (.mismatched found before) =>
    .error (env.diagnostic (.mismatchedBracket found) (inside.advanceColumn before.length))

/-- A tag inside of text. Returns the text after it. -/
def addTag (env : Setting) (body : List Char) (s : Lexer) : Except Diagnostic (List Char × Lexer) :=
  let s := (s.push .startInterpolation).advanceColumn 2
  match env.nested with
  | none => .error (env.diagnostic (.interpolationTooDeep maxInterpolationDepth) s)
  | some read => do
    let inside ← read (s.inner body)
    pure (inside.rest, s.afterInner inside)

/-- The tokens of a text. `front` is plain text that comes before it, and `shifted` tells that the
front holds the literal start of a tag, which is one character longer in the source. Every step
reads at least one character, so that as many steps as the text has characters are enough. -/
def addTextSteps (env : Setting) (form : TextForm) :
    Nat → List Char → Bool → List Char → Lexer → Except Diagnostic Lexer
  | 0, front, _, text, s => .ok (s.pushSomeText form (front ++ text))
  | n + 1, front, shifted, text, s =>
    match nextMarker s.interpolating env.interpolated text with
    | (before, none) => .ok (s.pushSomeText form (front ++ before))
    | (before, some (.literalTag, after)) =>
      addTextSteps env form n (front ++ before ++ ['#', '[']) true after s
    | (before, some (.literalCode sigil, after)) =>
      addTextSteps env form n (front ++ before ++ [sigil, '{']) false after s
    | (before, some (.close, after)) => .ok ((s.pushSomeText form (front ++ before)).close after)
    | (before, some (.tag, after)) => do
      let s := (s.pushText form (front ++ before)).advanceColumn (if shifted then 1 else 0)
      let (after, s) ← env.addTag after s
      addTextSteps env form n [] false after s
    | (before, some (.code escape, after)) => do
      let (after, s) ← env.addCode escape after (s.pushSomeText form (front ++ before))
      addTextSteps env form n [] false after s

/-- The tokens of a text that has been cut off from the rest. -/
def addText (env : Setting) (form : TextForm) (text : List Char) (s : Lexer) :
    Except Diagnostic Lexer :=
  addTextSteps env form (text.length + 1) [] false text s

/-! ## Rules and hooks -/

/-- The text at the front: after a pipe and at most one space, or after a space. The first part is
what comes before it. -/
def textLine? : List Char → Option (List Char × List Char)
  | '|' :: cs =>
    match cs with
    | ' ' :: rest =>
      if (Pattern.line rest).isEmpty then some (['|'], [' '])
      else some (['|', ' '], Pattern.line rest)
    | _ => some (['|'], Pattern.line cs)
  | ' ' :: cs =>
    if (Pattern.line cs).isEmpty then some ([], [' ']) else some ([' '], Pattern.line cs)
  | _ => none

/-- The rest of a line is text. -/
def text (env : Setting) (s : Lexer) : Step :=
  match textLine? s.rest with
  | none => .ok (false, s)
  | some (lead, text) => do
    let s := (s.consume (lead.length + text.length)).advanceColumn lead.length
    pure (true, ← env.addText .plain text s)

/-- What the first hook that does not decline makes of a rule. -/
def offer (env : Setting) (rule : Rule) (s : Lexer) : LexerClaim :=
  go env.hooks
where
  /-- Asks the hooks in turn. -/
  go : List LexerHook → LexerClaim
    | [] => .decline
    | hook :: hooks =>
      match hook rule env.file s with
      | .decline => go hooks
      | claim => claim

/-- The text rule, once the hooks have had their chance. A hook that asks for text to follow is
offered that text again. -/
def callTextSteps (env : Setting) : Nat → Lexer → Step
  | 0, s => env.text s
  | n + 1, s =>
    match env.offer .text s with
    | .decline => env.text s
    | .fail d => .error d
    | .accept next false => .ok (true, next)
    | .accept next true => do
      let (_, s) ← callTextSteps env n next
      pure (true, s)

/-- A rule, once the hooks have had their chance. -/
def call (env : Setting) (rule : Rule) (own : Lexer → Step) (s : Lexer) : Step :=
  match env.offer rule s with
  | .decline => own s
  | .fail d => .error d
  | .accept next false => .ok (true, next)
  | .accept next true => do
    let (_, s) ← env.callTextSteps next.rest.length next
    pure (true, s)

/-- Follows a rule as long as it reads something, at most a number of times. -/
def repeatCall (env : Setting) (rule : Rule) (own : Lexer → Step) :
    Nat → Lexer → Except Diagnostic Lexer
  | 0, s => .ok s
  | n + 1, s => do
    let (matched, s) ← env.call rule own s
    if matched then repeatCall env rule own n s else pure s

end Setting

/-! ## Blocks of text -/

namespace Lexer

def blank (s : Lexer) : Step :=
  match s.rest with
  | '\n' :: cs =>
    match cs.dropWhile Pattern.isGap with
    | '\n' :: rest => .ok (true, { s.advanceLine 1 with rest := '\n' :: rest })
    | _ => .ok (false, s)
  | _ => .ok (false, s)

/-- A line belongs to a block of text of this width: it is indented as far, or blank. -/
def inBlock (s : Lexer) (width : Nat) (line : List Char) : Bool :=
  width ≤ s.lineIndent line || Text.isBlankText line

/-- The width of the block of text that these lines start with. A line that is indented less, but
still more than the line above the block, makes the block wider to the left. -/
def blockWidth (s : Lexer) (lines : List (List Char)) (width : Nat) : Nat :=
  match lines.dropWhile (s.inBlock width) with
  | [] => width
  | line :: _ =>
    if s.indent < s.lineIndent line ∧ s.lineIndent line < width then
      s.blockWidth lines (s.lineIndent line)
    else width
termination_by width

/-- Drops as many bytes of the encoded text. There is nothing left if that cuts a character. -/
def dropBytes : Nat → List Char → List Char
  | 0, cs => cs
  | _, [] => []
  | n, c :: cs => if c.utf8Size ≤ n then dropBytes (n - c.utf8Size) cs else []

def dropEmptyEnd (lines : List (List Char)) : List (List Char) :=
  (lines.reverse.dropWhile List.isEmpty).reverse

end Lexer

namespace Setting

def addLines (env : Setting) (width : Nat) :
    Bool → List (List Char) → Lexer → Except Diagnostic Lexer
  | _, [], s => .ok s
  | first, line :: lines, s => do
    let s := s.advanceLine 1
    let s := (if first then s else s.push .newline).advanceColumn width
    let s ← env.addText .plain line s
    addLines env width false lines s

/-- The block of text below the current line, if the next lines are indented further. -/
def pipelessText (env : Setting) (s : Lexer) : Step := do
  let s ← env.repeatCall .blank Lexer.blank (s.rest.length + 1) s
  let (width, s) := s.indentation?
  match width with
  | none => pure (false, s)
  | some width =>
    if width ≤ s.indent then pure (false, s)
    else
      let lines := Text.splitLines (s.rest.drop 1)
      let width := s.blockWidth lines width
      let block := lines.takeWhile (s.inBlock width)
      let count := (block.flatMap fun line => '\n' :: line).length
      let texts := block.map (Lexer.dropBytes width)
      let s := (s.push .startPipelessText).consume count
      let texts := if s.rest.isEmpty then Lexer.dropEmptyEnd texts else texts
      let s ← env.addLines width true texts s
      pure (true, s.push .endPipelessText)

/-- The block of text below the current line, once the hooks have had their chance. -/
def callPipelessText (env : Setting) (s : Lexer) : Except Diagnostic Lexer := do
  let (_, s) ← env.call .pipelessText env.pipelessText s
  pure s

end Setting
end PugTemplate
