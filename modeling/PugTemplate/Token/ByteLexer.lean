import PugTemplate.Token.Lexer
/-!
# A lexer over bytes

The rules of the lexer again, for texts that are encoded in bytes. A slice is given by the bytes
where it starts and stops, and there is none outside of a text or inside of a character. There is no
difference below zero, and no turn of a loop that leaves as much to do as there was before it. Where
one of these goes wrong the lexer stops, and that is no diagnostic. There are no hooks.
-/

namespace PugTemplate

/-- Why a lexer stops. -/
inductive Stop where
  | refused (d : Diagnostic)
  /-- A slice outside of its text or inside of a character, or a difference below zero. -/
  | outOfRange
  /-- A turn that leaves as much to do as there was before it. -/
  | stuck
  deriving Repr

abbrev Checked (α : Type) := Except Stop α

/-- What a lexer does that cannot go out of range. -/
def Checked.of {α : Type} (x : Except Diagnostic α) : Checked α := x.mapError .refused

namespace ByteLexer

open Setting Pattern

/-! ## Slices and differences -/

/-- The size of a text in bytes. -/
def size : List Char → Nat
  | [] => 0
  | c :: cs => c.utf8Size + size cs

def minus (a b : Nat) : Checked Nat := if b ≤ a then .ok (a - b) else .error .outOfRange

/-- Cuts a text behind so many bytes. -/
def cut : List Char → Nat → Checked (List Char × List Char)
  | cs, 0 => .ok ([], cs)
  | [], _ + 1 => .error .outOfRange
  | c :: cs, n + 1 => do
    let (front, rest) ← cut cs (← minus (n + 1) c.utf8Size)
    pure (c :: front, rest)

def upTo (text : List Char) (stop : Nat) : Checked (List Char) := do
  let (front, _) ← cut text stop
  pure front

def behind (text : List Char) (start : Nat) : Checked (List Char) := do
  let (_, rest) ← cut text start
  pure rest

def slice (text : List Char) (start stop : Nat) : Checked (List Char) := do
  let rest ← behind text start
  upTo rest (← minus stop start)

/-! ## Moves -/

abbrev Step := Checked (Bool × Lexer)

/-- Drops bytes, but no more than there are. -/
def consume (s : Lexer) (n : Nat) : Checked Lexer := do
  let rest ← behind s.rest (min n (size s.rest))
  pure { s with rest }

/-- Moves the place over a text, by the part of it behind the last line break. -/
def skipOver (s : Lexer) (text : List Char) : Checked Lexer :=
  match text.reverse.dropWhile isOnLine with
  | [] => pure (s.advanceColumn text.length)
  | _ :: front => do
    let last ← behind text (size front.reverse + 1)
    pure ((s.advanceLine (text.count '\n')).advanceColumn last.length)

/-- Drops a match and moves the place to the value in it. -/
def scan (s : Lexer) (whole value : List Char) : Checked (Position × Lexer) := do
  let lead ← minus whole.length value.length
  let next ← consume s (size whole)
  pure (s.position, next.advanceColumn lead)

/-- Drops a match that must end its line, with the blanks behind it, or stand before a colon. -/
def scanEndOfLine (s : Lexer) (whole : List Char) : Checked (Option (Position × Lexer)) := do
  let spaces ← minus (size whole) (size (whole.dropWhile (· == ' ')))
  let after ← behind s.rest (size whole)
  match endOfLine? after with
  | none => pure none
  | some rest =>
    let moved := s.advanceColumn spaces
    let next ← consume moved (size whole + (← minus (size after) (size rest)))
    pure (some (moved.position, next.advanceColumn (← minus whole.length spaces)))

/-! ## Brackets -/

def refuse {α : Type} (env : Setting) (cause : Cause) (s : Lexer) : Checked α :=
  .error (.refused (env.diagnostic cause s))

/-- What is wrong with a text that is scanned, and where. -/
inductive ScanFault where
  | mismatched (found : Char) (index : Nat)
  | unfinished (index : Nat)

/-- The place of the first closing character that is not nested, and the text before it. -/
def scanUntil (src : List Char) (closer : Char) (start : Nat) (state : Nesting.State)
    (index : Nat) : Checked (Except ScanFault (Nat × List Char)) :=
  if index < size src then do
    match ← behind src index with
    | [] => pure (.error (.unfinished index))
    | c :: _ =>
      if !state.isNesting false && c == closer then pure (.ok (index, ← slice src start index))
      else
        match state.push c with
        | none => pure (.error (.mismatched c index))
        | some state => scanUntil src closer start state (index + c.utf8Size)
  else pure (.error (.unfinished index))
termination_by size src - index
decreasing_by
  have hpos := c.utf8Size_pos
  omega

/-- The end of the bracket that stands behind `skip` bytes, and the text inside of it. -/
def bracketed (env : Setting) (s : Lexer) (skip : Nat) : Checked (Nat × List Char) := do
  let after ← behind s.rest skip
  match after.head?.bind closer? with
  | none => refuse env .noBracket s
  | some closer =>
    match ← scanUntil s.rest closer (skip + 1) {} (skip + 1) with
    | .ok range => pure range
    | .error (.mismatched found index) =>
      let moved ← skipOver s (← upTo s.rest index)
      refuse env (.mismatchedBracket found) moved
    | .error (.unfinished _) =>
      let before ← upTo s.rest skip
      refuse env (.unclosedBracket closer) (s.advanceColumn before.length)

/-! ## Text -/

section Rules

variable (env : Setting) (nested : Option (Lexer → Checked Lexer))

/-- An expression inside of text. Returns the text after it. -/
def addCode (escape : Bool) (body : List Char) (s : Lexer) : Checked (List Char × Lexer) := do
  let inside := s.advanceColumn 2
  match ← scanUntil body '}' 0 {} 0 with
  | .error (.unfinished _) => refuse env .unclosedInterpolation s
  | .error (.mismatched found index) =>
    let before ← upTo body index
    let moved := inside.advanceColumn before.length
    refuse env (.mismatchedBracket found) moved
  | .ok (stop, source) =>
    .of (env.requireExpression source inside.position)
    let token := TokenKind.interpolatedCode (String.ofList source) escape true
    let whole ← upTo body (stop + 1)
    pure (← behind body (stop + 1), (inside.pushAt token s.position).advanceColumn whole.length)

/-- A tag inside of text. Returns the text after it. -/
def addTag (body : List Char) (s : Lexer) : Checked (List Char × Lexer) :=
  let s := (s.push .startInterpolation).advanceColumn 2
  match nested with
  | none => refuse env (.interpolationTooDeep maxInterpolationDepth) s
  | some read => do
    let inside ← read (s.inner body)
    pure (inside.rest, s.afterInner inside)

/-- The tokens of a text. What is read on must be shorter. -/
def addText (form : TextForm) (front : List Char) (shifted : Bool) (text : List Char) (s : Lexer) :
    Checked Lexer :=
  let onward (front : List Char) (shifted : Bool) (rest : List Char) (s : Lexer) : Checked Lexer :=
    if _h : rest.length < text.length then addText form front shifted rest s else .error .stuck
  match nextMarker s.interpolating env.interpolated text with
  | (_, none) => pure (s.pushSomeText form (front ++ text))
  | (before, some (.literalTag, _)) => do
    let lead ← upTo text (size before)
    onward (front ++ lead ++ ['#', '[']) true (← behind text (size before + 3)) s
  | (before, some (.literalCode sigil, _)) => do
    let lead ← upTo text (size before)
    onward (front ++ lead ++ [sigil, '{']) false (← behind text (size before + 3)) s
  | (before, some (.close, _)) => do
    let lead ← upTo text (size before)
    let s ← if front.isEmpty && before.isEmpty then pure s else onward front false lead s
    pure (s.close (← behind text (size before + 1)))
  | (before, some (.tag, _)) => do
    let lead ← upTo text (size before)
    let s := (s.pushText form (front ++ lead)).advanceColumn (if shifted then 1 else 0)
    let (rest, s) ← addTag env nested (← behind text (size before + 2)) s
    onward [] false rest s
  | (before, some (.code escape, _)) => do
    let lead ← upTo text (size before)
    let body ← behind text (size before + 2)
    let (rest, s) ← addCode env escape body (s.pushSomeText form (front ++ lead))
    onward [] false rest s
termination_by text.length

def text (s : Lexer) : Step :=
  match textLine? s.rest with
  | none => pure (false, s)
  | some (lead, text) => do
    let (_, next) ← scan s (lead ++ text) text
    pure (true, ← addText env nested .plain [] false text next)

def textHtml (s : Lexer) : Step :=
  match s.rest with
  | '<' :: _ => do
    let (_, next) ← scan s (line s.rest) (line s.rest)
    pure (true, ← addText env nested .html [] false (line s.rest) next)
  | _ => pure (false, s)

/-! ## Blocks of text -/

/-- Follows a rule as long as it reads something. -/
def repeatRule (rule : Lexer → Step) (s : Lexer) : Checked Lexer := do
  let (matched, next) ← rule s
  if !matched then pure next
  else if _h : next.rest.length < s.rest.length then repeatRule rule next
  else .error .stuck
termination_by s.rest.length

def blank (s : Lexer) : Step :=
  match s.rest with
  | '\n' :: cs =>
    match cs.dropWhile isGap with
    | '\n' :: _ => do
      let whole := '\n' :: cs.takeWhile isGap ++ ['\n']
      let next ← consume s (← minus (size whole) 1)
      pure (true, next.advanceLine 1)
    | _ => pure (false, s)
  | _ => pure (false, s)

/-- The lines of a block of text of a width from an offset on, and the offset behind them; or the
width that a line makes the block have. -/
def blockLines (s : Lexer) (width offset : Nat) (lines : List (List Char)) :
    Checked (Nat ⊕ (Nat × List (List Char))) := do
  let body ← behind s.rest (offset + 1)
  let line ← upTo body (size (line body))
  if s.inBlock width line then
    let lines := lines ++ [Lexer.dropBytes width line]
    let offset' := offset + size line + 1
    if _h : offset' < size s.rest then blockLines s width offset' lines
    else pure (.inr (offset', lines))
  else if s.indent < s.lineIndent line then pure (.inl (s.lineIndent line))
  else pure (.inr (offset, lines))
termination_by size s.rest - offset

/-- The width of the block of text that comes next, its lines and the offset behind them. A block
that is read again must be wider to the left, but stay right of the line above it. -/
def block (s : Lexer) (width : Nat) : Checked (Nat × Nat × List (List Char)) := do
  match ← blockLines s width 0 [] with
  | .inr (offset, lines) => pure (width, offset, lines)
  | .inl width' =>
    if _h : s.indent < width' ∧ width' < width then block s width' else .error .stuck
termination_by width

def addLines (width : Nat) : Bool → List (List Char) → Lexer → Checked Lexer
  | _, [], s => pure s
  | first, line :: lines, s => do
    let s := s.advanceLine 1
    let s := (if first then s else s.push .newline).advanceColumn width
    addLines width false lines (← addText env nested .plain [] false line s)

def pipelessText (s : Lexer) : Checked Lexer := do
  let s ← repeatRule blank s
  match s.indentation? with
  | (none, s) => pure s
  | (some width, s) =>
    if width ≤ s.indent then pure s
    else
      let (width, offset, lines) ← block s width
      let s ← consume (s.push .startPipelessText) offset
      let lines := if s.rest.isEmpty then Lexer.dropEmptyEnd lines else lines
      let s ← addLines env nested width true lines s
      pure (s.push .endPipelessText)

/-! ## Words -/

def endInterpolation (s : Lexer) : Step :=
  match s.rest with
  | ']' :: _ => do
    if env.interpolated then
      let next ← consume s 1
      pure (true, { next with ended := true })
    else pure (false, s)
  | _ => pure (false, s)

def loneWord (word : String) (kind : TokenKind) (s : Lexer) : Step :=
  match afterWord? word s.rest with
  | none => pure (false, s)
  | some _ => do
    match ← scanEndOfLine s word.toList with
    | some (at_, next) => pure (true, next.pushAt kind at_)
    | none => pure (false, s)

def doctype (s : Lexer) : Step :=
  match afterWord? "doctype" s.rest with
  | none => pure (false, s)
  | some rest => do
    let name := line (rest.dropWhile (· == ' '))
    match ← scanEndOfLine s (line s.rest) with
    | some (at_, next) => pure (true, next.pushAt (.doctype (String.ofList name)) at_)
    | none => pure (false, s)

/-- Refuses a word that is not followed by what it takes. -/
def refuseWord (word : String) (cause : Cause) (s : Lexer) : Step :=
  if atKeyword word s.rest then refuse env cause s else pure (false, s)

def defaultCase (s : Lexer) : Step := do
  let (matched, s) ← loneWord "default" .default s
  if matched then pure (true, s) else refuseWord env "default" .defaultWithExpression s

/-- A word, spaces and a value up to the end of the line or a colon. -/
def wordValue? (word : String) (isPart : Char → Bool) (s : Lexer) :
    Checked (Option (List Char × Lexer)) :=
  match (afterWord? word s.rest).bind (spacedValue? isPart) with
  | none => pure none
  | some (spaces, value) => do
    match ← scanEndOfLine s (word.toList ++ spaces ++ value) with
    | none => pure none
    | some (_, next) => pure (some (value, next))

def valueStart (s : Lexer) (value : List Char) : Checked Position := do
  pure ⟨s.line, ← minus s.column value.length⟩

def case (s : Lexer) : Step := do
  match ← wordValue? "case" isOnLine s with
  | some (value, next) =>
    .of (env.requireExpression value (← valueStart next value))
    pure (true, next.pushAt (.case (String.ofList value)) s.position)
  | none => refuseWord env "case" .noCaseExpression s

def continueWhen (value : List Char) (s : Lexer) : Checked (List Char × Lexer) :=
  match Nesting.scan value with
  | .error fault => .error (.refused (env.scanDiagnostic fault s))
  | .ok state =>
    if !(state.isNesting false || state.isString) then pure (value, s)
    else
      match s.rest with
      | ':' :: cs =>
        let part := cs.takeWhile isWhenPart
        if part.isEmpty then pure (value, s)
        else do
          let next ← consume s (size (':' :: part))
          if _h : next.rest.length < s.rest.length then
            continueWhen (value ++ ':' :: part) (next.advanceColumn (part.length + 1))
          else .error .stuck
      | _ => pure (value, s)
termination_by s.rest.length

def when (s : Lexer) : Step := do
  match ← wordValue? "when" isWhenPart s with
  | some (value, next) =>
    let (value, next) ← continueWhen env value next
    .of (env.requireExpression value (← valueStart next value))
    pure (true, next.pushAt (.when (String.ofList value)) s.position)
  | none => refuseWord env "when" .noWhenExpression s

def whileLoop (s : Lexer) : Step :=
  match (afterWord? "while" s.rest).bind (spacedValue? isOnLine) with
  | some (spaces, value) => do
    let whole := "while".toList ++ spaces ++ value
    let base : Position := ⟨s.line, ← minus (s.column + whole.length) value.length⟩
    let next ← consume s (size whole)
    .of (env.requireExpression value base)
    let next := next.advanceColumn whole.length
    pure (true, next.pushAt (.while (String.ofList value)) s.position)
  | none => refuseWord env "while" .noWhileExpression s

def conditional (s : Lexer) : Step :=
  match conditionWords.find? fun word => atKeyword word s.rest with
  | none => pure (false, s)
  | some word => do
    let whole := line s.rest
    let tail ← behind whole (size word.toList)
    let source := Text.trim tail
    let lead ← minus tail.length (Text.trimStart tail).length
    let next ← consume s (size whole)
    let base : Position := ⟨s.line, s.column + word.length + lead⟩
    let kind ←
      match word with
      | "if" => do
        .of (env.requireExpression source base)
        pure (TokenKind.if (String.ofList source))
      | "unless" => do
        .of (env.requireExpression source base)
        pure (TokenKind.if ("!(" ++ String.ofList source ++ ")"))
      | "else if" => do
        .of (env.requireExpression source base)
        pure (TokenKind.elseIf (String.ofList source))
      | _ =>
        if source.isEmpty then pure (TokenKind.else "")
        else refuse env .elseCondition s
    pure (true, (next.advanceColumn whole.length).pushAt kind s.position)

def each (s : Lexer) : Step :=
  match loopHead? s.rest with
  | some head => do
    let whole := line s.rest
    let lead ← minus whole.length head.list.length
    let next ← consume s (size whole)
    let next := next.advanceColumn lead
    .of (env.requireExpression head.list next.position)
    let kind := TokenKind.each (String.ofList head.item) (head.key.map String.ofList)
      (String.ofList head.list)
    pure (true, (next.advanceColumn head.list.length).pushAt kind s.position)
  | none => .of (env.each s)

/-! ## Other files and named blocks -/

def path (s : Lexer) : Step :=
  match s.rest with
  | ' ' :: cs => do
    let value := line cs
    if value.isEmpty then pure (false, s)
    else
      match ← scanEndOfLine s (' ' :: value) with
      | none => pure (false, s)
      | some (at_, next) =>
        let value := Text.trim value
        if value.isEmpty then pure (false, next)
        else pure (true, next.pushAt (.path (String.ofList value)) at_)
  | _ => pure (false, s)

def extendsPath (s : Lexer) : Step :=
  let word := if (afterWord? "extends" s.rest).isSome then "extends" else "extend"
  match afterWord? word s.rest with
  | none => pure (false, s)
  | some _ => do
    if endsPathWord [] (← behind s.rest (size word.toList)) then
      let next ← consume s (size word.toList)
      let (matched, next) ← path ((next.advanceColumn word.length).pushAt .extends s.position)
      if matched then pure (true, next)
      else refuse env .noExtendsPath next
    else .of (env.extendsPath s)

def namedBlock (content : List Char → Option (List Char)) (mode : BlockMode) (s : Lexer) : Step :=
  match content s.rest with
  | none => pure (false, s)
  | some after => do
    let value ← upTo (line after) (size (beforeComment (line after)))
    let name := Text.trim value
    if name.isEmpty then pure (false, s)
    else
      let whole ← upTo s.rest ((← minus (size s.rest) (size after)) + size value)
      let next ← consume s (size whole)
      let next := next.advanceColumn whole.length
      pure (true, next.pushAt (.block (String.ofList name) mode) s.position)

def attributes (s : Lexer) : Step :=
  match s.rest with
  | '(' :: _ => do
    let s := s.push .startAttributes
    let (stop, _) ← bracketed env s 0
    let body ← slice s.rest 1 stop
    let inside := (← consume s (stop + 1)).advanceColumn 1
    let r : AttributeReader :=
      { line := s.line, start := inside.column, valueStart := inside.column }
    let after ← .of (env.readAttributes r inside body)
    let after := { after with line := s.line + body.count '\n' }
    pure (true, (after.push .endAttributes).advanceColumn 1)
  | _ => pure (false, s)

def filter (inInclude : Bool) (s : Lexer) : Step :=
  match s.rest with
  | ':' :: cs =>
    match name? cs with
    | none => pure (false, s)
    | some name => do
      let (at_, next) ← scan s (':' :: name) name
      let next := (next.advanceColumn name.length).pushAt (.filter (String.ofList name)) at_
      let (_, next) ← attributes env next
      if inInclude then pure (true, next)
      else pure (true, ← pipelessText env nested { next with interpolating := false })
  | _ => pure (false, s)

def includeFile (s : Lexer) : Step :=
  match afterWord? "include" s.rest with
  | none => pure (false, s)
  | some _ => do
    if endsPathWord [':'] (← behind s.rest 7) then
      let next ← consume (s.push .include) 7
      let next ← repeatRule (filter env nested true) (next.advanceColumn 7)
      let (matched, next) ← path next
      if matched then pure (true, next)
      else if next.rest.head?.all fun c => c == ' ' || c == '\n' then
        refuse env .noIncludePath next
      else .error (.refused (env.unexpectedText next))
    else .of (env.includeFile s)

/-! ## Mixins -/

def mixin (s : Lexer) : Step :=
  match mixinHead? s.rest with
  | none => pure (false, s)
  | some head => do
    let parameters := head.parameters.filter fun ps => !ps.isEmpty
    let whole := s.rest.take head.width
    let next ← consume s (size whole)
    let kind := .mixin (String.ofList head.name) (parameters.map String.ofList)
    pure (true, (next.advanceColumn whole.length).pushAt kind s.position)

def callName (s : Lexer) : Checked (Option (String × Lexer)) :=
  match s.rest with
  | '+' :: cs =>
    let spacing := cs.takeWhile Text.isBlank
    let rest := cs.dropWhile Text.isBlank
    match name? rest with
    | some name => do
      let whole := '+' :: spacing ++ name
      let next ← consume s (size whole)
      pure (some (String.ofList name, next.advanceColumn whole.length))
    | none =>
      match rest with
      | '#' :: '{' :: _ => do
        let (stop, source) ← bracketed env s (2 + size spacing)
        let whole ← upTo s.rest (stop + 1)
        let next ← consume s (size whole)
        .of (env.requireExpression source ⟨s.line, s.column + 2 + spacing.length⟩)
        let name := "#\x7b" ++ String.ofList source ++ "\x7d"
        pure (some (name, ← skipOver next whole))
      | _ => pure none
  | _ => pure none

def callArguments (s : Lexer) : Checked (Option String × Lexer) :=
  let spaces := s.rest.takeWhile (· == ' ')
  match s.rest.dropWhile (· == ' ') with
  | '(' :: _ => do
    let opener ← minus (size (spaces ++ ['('])) 1
    let (stop, source) ← bracketed env s opener
    if looksLikeAttributes source then pure (none, s)
    else
      let next := (← consume s (stop + 1)).advanceColumn (opener + 1)
      let base : Position := ⟨next.line, ← minus next.column 1⟩
      .of (env.requireExpression ('[' :: source ++ [']']) base)
      pure (some (String.ofList source), (← skipOver next source).advanceColumn 1)
  | _ => pure (none, s)

def mixinCall (s : Lexer) : Step := do
  match ← callName env s with
  | none => pure (false, s)
  | some (name, next) =>
    let (arguments, next) ← callArguments env next
    pure (true, next.pushAt (.call name arguments) s.position)

/-! ## Tags -/

def interpolation (s : Lexer) : Step :=
  match s.rest with
  | '#' :: '{' :: _ => do
    let (stop, source) ← bracketed env s 1
    let next ← consume s (stop + 1)
    let next := (next.push (.interpolation (String.ofList source))).advanceColumn 2
    .of (env.requireExpression source next.position)
    pure (true, (← skipOver next source).advanceColumn 1)
  | _ => pure (false, s)

def tag (s : Lexer) : Step :=
  match tagName? s.rest with
  | none => pure (false, s)
  | some name => do
    let next ← consume s (size name)
    let next := next.advanceColumn name.length
    pure (true, next.pushAt (.tag (String.ofList name)) s.position)

/-- A character and a name. -/
def marked (kind : String → TokenKind) (mark : Char) (name : List Char) (s : Lexer) : Step := do
  let (at_, next) ← scan s (mark :: name) name
  pure (true, (next.advanceColumn name.length).pushAt (kind (String.ofList name)) at_)

def idName (s : Lexer) : Step :=
  match s.rest with
  | '#' :: cs =>
    match name? cs with
    | some name => marked .id '#' name s
    | none => do
      let name := badName (← behind s.rest 1)
      refuse env (.invalidId (String.ofList name)) s
  | _ => pure (false, s)

def className (s : Lexer) : Step :=
  match s.rest with
  | '.' :: cs =>
    match className? cs with
    | some name => marked .class '.' name s
    | none => refuse env (classCause cs) s
  | _ => pure (false, s)

def spreadAttributes (s : Lexer) : Step :=
  if atKeyword "&attributes" s.rest then do
    let next := (← consume s 11).advanceColumn 11
    let (stop, source) ← bracketed env next 0
    let whole ← upTo next.rest (stop + 1)
    let after ← consume next (size whole)
    let kind := TokenKind.spreadAttributes (String.ofList source)
    pure (true, ← skipOver (after.pushAt kind s.position) whole)
  else pure (false, s)

def dot (s : Lexer) : Step := do
  let (matched, s) ← loneWord "." .dot s
  if matched then pure (true, ← pipelessText env nested s) else pure (false, s)

/-- Marks without a value. -/
def punctuation (kind : TokenKind) (whole : List Char) (s : Lexer) : Step := do
  let (at_, next) ← scan s whole []
  pure (true, next.pushAt kind at_)

def slash (s : Lexer) : Step :=
  match s.rest with
  | '/' :: _ => punctuation .slash ['/'] s
  | _ => pure (false, s)

def colon (s : Lexer) : Step :=
  match s.rest with
  | ':' :: cs =>
    let spaces := cs.takeWhile (· == ' ')
    if spaces.isEmpty then pure (false, s) else punctuation .colon (':' :: spaces) s
  | _ => pure (false, s)

/-! ## Code and comments -/

def blockCode (s : Lexer) : Step := do
  let (matched, s) ← loneWord "-" .blockCode s
  if matched then pure (true, ← pipelessText env nested { s with interpolating := false })
  else pure (false, s)

/-- The code up to the end of the interpolation that it stands in, and how many bytes are left out. -/
def codeSource (source : List Char) (s : Lexer) : Checked (List Char × Nat) := do
  if env.interpolated then
    match ← scanUntil source ']' 0 {} 0 with
    | .ok (stop, inside) => pure (inside, ← minus (size source) stop)
    | .error (.mismatched found index) =>
      let before ← upTo source (min index (size source))
      let moved := s.advanceColumn before.length
      refuse env (.mismatchedBracket found) moved
    | .error (.unfinished index) =>
      let before ← upTo source (min index (size source))
      let moved := s.advanceColumn before.length
      refuse env .unclosedInterpolation moved
  else pure (source, 0)

def code (s : Lexer) : Step :=
  match codeMarks? s.rest with
  | none => pure (false, s)
  | some (marks, escape, buffer) =>
    match codeLine? (s.rest.drop marks) with
    | none => pure (false, s)
    | some (gap, line) => do
      let whole := s.rest.take (marks + gap + line.length)
      let inside := s.advanceColumn (← minus whole.length line.length)
      let (source, left) ← codeSource env line inside
      let next ← consume inside (← minus (size whole) left)
      if buffer then .of (env.requireExpression source inside.position)
      let next := next.advanceColumn source.length
      pure (true, next.pushAt (.code (String.ofList source) escape buffer) s.position)

def comment (s : Lexer) : Step :=
  match s.rest with
  | '/' :: '/' :: cs => do
    let whole := line s.rest
    let buffer := cs.head? != some '-'
    let text := whole.drop (if buffer then 2 else 3)
    let next ← consume s (size whole)
    let next := next.pushAt (.comment (String.ofList text) buffer) s.position
    let next := { next with interpolating := buffer }.advanceColumn whole.length
    pure (true, ← pipelessText env nested next)
  | _ => pure (false, s)

/-! ## Indentation -/

/-- An entry of a stack. -/
def entry (stack : List Nat) (n : Nat) : Checked Nat :=
  match stack[n]? with
  | some width => .ok width
  | none => .error .outOfRange

/-- Closes indentations that are wider than a width. The outermost one is zero. -/
def closeIndents (width : Nat) (s : Lexer) : Checked Lexer := do
  if s.indent ≤ width then pure s
  else
    let outer ← entry (s.indents ++ [0]) 1
    if outer < width then
      refuse env (.inconsistentIndentation outer s.indent) s
    else
      let next := { s with column := outer + 1, indents := s.indents.tail }.push .outdent
      if _h : next.indents.length < s.indents.length then closeIndents width next else .error .stuck
termination_by s.indents.length

def indent (s : Lexer) : Step :=
  match s.indentation? with
  | (none, s) => pure (false, s)
  | (some width, s) => do
    let s ← consume (s.advanceLine 1) (width + 1)
    match s.rest with
    | ' ' :: _ => refuse env .mixedIndentation s
    | '\t' :: _ => refuse env .mixedIndentation s
    | '\n' :: _ => pure (true, { s with interpolating := true })
    | _ =>
      let next ←
        if width < s.indent then closeIndents env width s
        else if s.indent < width then
          pure { s.push (.indent width) with column := width + 1, indents := width :: s.indents }
        else pure { s.push .newline with column := s.indent + 1 }
      pure (true, { next with interpolating := true })

/-! ## All rules -/

/-- The rules in the order in which they are tried. -/
def rules : List (Lexer → Step) :=
  [blank, fun s => .of (env.eos s), endInterpolation env, loneWord "yield" .yield, doctype,
    interpolation env, case env, when env, defaultCase env, extendsPath env,
    namedBlock (blockCommand? "append") .append, namedBlock (blockCommand? "prepend") .prepend,
    namedBlock (blockLine? "block") .replace, loneWord "block" .mixinBlock,
    includeFile env nested, mixin, mixinCall env, conditional env, each env, whileLoop env, tag,
    filter env nested false, blockCode env nested, code env, idName env, dot env nested,
    className env, attributes env, spreadAttributes env, indent env, text env nested,
    textHtml env nested, comment env nested, slash, colon]

def tryRules : List (Lexer → Step) → Lexer → Step
  | [], s => .error (.refused (env.unexpectedText s))
  | rule :: rules, s => do
    let (matched, s) ← rule s
    if matched then pure (true, s) else tryRules rules s

/-- Reads constructs until nothing more is to be read. Each of them must leave less text, or be the
last one. -/
def run (s : Lexer) : Checked Lexer := do
  if s.ended then pure s
  else
    let (_, next) ← tryRules env (rules env nested) s
    if _h : next.ended ∨ next.rest.length < s.rest.length then run next else .error .stuck
termination_by if s.ended then 0 else s.rest.length + 1
decreasing_by
  split
  · exact Nat.succ_pos _
  · next hgoing => exact Nat.succ_lt_succ (_h.resolve_left hgoing)

end Rules

/-- Reads the inside of a tag interpolation, as far as they may still be nested. -/
def nestedAt (env : Setting) : Nat → Option (Lexer → Checked Lexer)
  | 0 => none
  | n + 1 => some (run { env.nesting n with interpolated := true } (nestedAt env n))

/-- The tokens of a template. -/
def tokenize (env : Setting) (source : String) : Checked (List Token) := do
  let depth := maxInterpolationDepth
  let s ← run (env.nesting depth) (nestedAt env depth) { rest := normalize source }
  pure s.tokens.reverse

end ByteLexer
end PugTemplate
