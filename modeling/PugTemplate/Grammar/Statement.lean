import PugTemplate.Grammar.Expression
/-!
# Statements of the script grammar
-/

namespace PugTemplate
namespace Grammar

open Script (Syntax)

variable (rules : Rules)

def condition : Reader Syntax := do
  expect "("
  let e ← rules (.expression true)
  expect ")"
  return rule "parenthesized_expression" [e]

/-! ## Declarations -/

/-- The word declares variables here: `let` does so before a name or a pattern only. -/
def isDeclaring (word : String) (rest : List Char) : Bool :=
  word == "var" || word == "const" ||
    (word == "let" && (ahead rest).any fun a => match a.lexeme with
      | .word w => isName w && w != "in"
      | .mark m => m == "[" || m == "\x7b"
      | _ => false)

def declarator (allowIn : Bool) : Reader Syntax := do
  let target ← target? (← primary rules)
  let value ← if ← has (.mark "=") then do pure [← rules (.assignment allowIn)] else pure []
  return construct "variable_declarator" ["name", "value"] (target :: value)

/-- Reads declared variables with commas between them, after the word that declares them. -/
def declarators (allowIn : Bool) : Nat → List Syntax → Reader Syntax
  | 0, _ => failure
  | n + 1, done => do
    let done := (← declarator rules allowIn) :: done
    if ← has (.mark ",") then declarators allowIn n done
    else return construct "variable_declaration" ["kind"] done.reverse

def declaration (allowIn : Bool) (word : String) : Reader Syntax := do
  declarators rules allowIn ((← get).length + 1) [mark word]

/-! ## Loops -/

/-- Reads an expression up to a mark, or nothing if the mark comes at once. -/
def optionalUntil (close : String) : Reader Syntax := do
  if ← has (.mark close) then return absent
  let e ← rules (.expression true)
  expect close
  return e

/-- Reads condition, step and body of a counting loop, after its first semicolon. -/
def forTail (first : Syntax) : Reader Syntax := do
  let test ← optionalUntil rules ";"
  let step ← optionalUntil rules ")"
  return construct "for_statement" ["initializer", "condition", "increment", "body"]
    [first, test, step, ← rules .statement]

/-- Reads `in` or `of` with object and body of a loop, after its left side. -/
def forEachTail (declaring : List Syntax) (left : Syntax) : Reader Syntax := do
  let object ←
    if ← has (.word "in") then rules (.expression true)
    else
      expectWord "of"
      rules (.assignment true)
  expect ")"
  let fields := ["left", "right", "body"]
  return construct "for_in_statement" (if declaring.isEmpty then fields else "kind" :: fields)
    (declaring ++ [← target? left, object, ← rules .statement])

/-- Reads a loop after what starts its first part, if that is the left side of a loop over an object;
otherwise the first part is read on its own. -/
def forRest (declaring : List Syntax) (left first : Reader Syntax) : Reader Syntax := do
  let each := (do
    let t ← left
    guard ((← isNext (.word "in")) || (← isNext (.word "of")))
    return t : Reader Syntax)
  match each (← get) with
  | some (t, rest) =>
    set rest
    forEachTail rules declaring t
  | none =>
    let first ← first
    expect ";"
    forTail rules first

/-- Reads a loop after the word `for`. -/
def forLoop : Reader Syntax := do
  let _ ← has (.word "await")
  expect "("
  if ← has (.mark ";") then forTail rules absent
  else
    let ordinary := forRest rules [] (do suffixed rules true (← primary rules))
      (rules (.expression false))
    match ← peek with
    | ⟨_, .word w, _, rest⟩ =>
      if isDeclaring w rest then
        set rest
        forRest rules [mark w] (primary rules) (declaration rules false w)
      else ordinary
    | _ => ordinary

/-! ## Statements -/

/-- Reads what may follow a word up to the end of the statement. -/
def ending (kind : String) (part : Reader Syntax) : Reader Syntax := fun cs =>
  match endStatement cs with
  | some (_, cs) => some (rule kind [], cs)
  | none => (do
      let t ← part
      endStatement
      return rule kind [t] : Reader Syntax) cs

def label : Reader Syntax := do
  match ← peek with
  | ⟨_, .word w, _, rest⟩ =>
    set rest
    return leaf "statement_identifier" w
  | _ => failure

/-- Reads the handler of a `try`, if there is one. -/
def handler : Reader (List Syntax) := do
  if !(← has (.word "catch")) then return []
  let parameter ← if ← has (.mark "(") then do
      let target ← target? (← rules .primary)
      expect ")"
      pure target
    else pure absent
  return [construct "catch_clause" ["parameter", "body"] [parameter, ← body rules]]

def tryStatement : Reader Syntax := do
  let body ← Grammar.body rules
  let handler ← handler rules
  let last ← if ← has (.word "finally") then do pure [← Grammar.body rules] else pure []
  guard !(handler ++ last).isEmpty
  return construct "try_statement" ["body"] (body :: handler ++ last)

/-- Reads the labels of a `switch` with their statements, up to the closing brace. -/
def cases : Nat → List Syntax → Reader Syntax
  | 0, _ => failure
  | n + 1, done => do
    if ← has (.mark "\x7d") then return rule "statement_block" done.reverse
    let value ← if ← has (.word "case") then do pure [← rules (.expression true)]
      else
        expectWord "default"
        pure []
    expect ":"
    cases n (rule "switch_case" (value ++ [← rules .statements]) :: done)

def expressionStatement : Reader Syntax := do
  let e ← expression rules true
  endStatement
  return rule "expression_statement" [e]

/-- Reads a statement that starts with a word, after the word; `cs` is the text from the word on. -/
def wordStatement (word : String) (cs : List Char) : Reader Syntax := do
  let rest ← get
  if isDeclaring word rest then
    let d ← declaration rules true word
    endStatement
    return d
  let isAsync := word == "async" &&
    (ahead rest).any fun a => a.lexeme == .word "function" && !a.broken
  if isAsync then expectWord "function"
  if isAsync || word == "function" then functionRule rules "function_declaration"
  else
    match word with
    | "class" => classRule rules "class_declaration"
    | "if" =>
      let test ← condition rules
      let yes ← rules .statement
      let no ← if ← has (.word "else") then do pure [← rules .statement] else pure []
      return construct "if_statement" ["condition", "consequence", "alternative"] (test :: yes :: no)
    | "for" => forLoop rules
    | "while" =>
      let test ← condition rules
      return construct "while_statement" ["condition", "body"] [test, ← rules .statement]
    | "do" =>
      let body ← rules .statement
      expectWord "while"
      let test ← condition rules
      let _ ← has (.mark ";")
      return construct "do_statement" ["body", "condition"] [body, test]
    | "return" => ending "return_statement" (rules (.expression true))
    | "throw" => ending "throw_statement" (rules (.expression true))
    | "break" => ending "break_statement" label
    | "continue" => ending "continue_statement" label
    | "try" => tryStatement rules
    | "switch" =>
      let subject ← condition rules
      expect "\x7b"
      let body ← cases rules ((← get).length + 1) []
      return construct "switch_statement" ["value", "body"] [subject, body]
    | "with" =>
      let object ← condition rules
      return construct "with_statement" ["object", "body"] [object, ← rules .statement]
    | "debugger" =>
      endStatement
      return rule "debugger_statement" []
    | _ =>
      if isName word && (← has (.mark ":")) then
        let label := leaf "statement_identifier" word
        return construct "labeled_statement" ["label", "body"] [label, ← rules .statement]
      set cs
      expressionStatement rules

def statement : Reader Syntax := do
  let cs ← get
  let a ← peek
  match a.lexeme with
  | .mark "\x7b" => body rules
  | .mark ";" =>
    set a.rest
    return rule "empty_statement" []
  | .word w =>
    set a.rest
    wordStatement rules w cs
  | _ => expressionStatement rules

def endsStatements : Lexeme → Bool
  | .mark m => m == "\x7d"
  | .word w => w == "case" || w == "default"
  | .finish => true
  | _ => false

/-- Reads statements up to a closing brace, a label of a `switch` or the end. -/
def statements : Nat → List Syntax → Reader Syntax
  | 0, _ => failure
  | n + 1, done => do
    let a ← peek
    if endsStatements a.lexeme then
      set a.here
      return rule "statement_block" done.reverse
    statements n ((← statement rules) :: done)

end Grammar
end PugTemplate
