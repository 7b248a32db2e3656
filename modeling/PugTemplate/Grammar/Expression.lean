import PugTemplate.Grammar.Lexeme
import PugTemplate.Script.Syntax
/-!
# Expressions of the script grammar

A reader takes a construct from the front of a text and gives its tree. Each rule of the grammar gets a
reader for all goals, which it calls behind a lexeme that it has read itself; so the text of a call is
always shorter than the rule's own.
-/

namespace PugTemplate
namespace Grammar

open Script (Syntax)

/-! ## Trees -/

/-- A node that stands for a rule of the grammar. -/
def rule (kind : String) (children : List Syntax) (text : String := "") : Syntax :=
  .node { kind, text } children

/-- A node without parts. -/
def leaf (kind text : String) : Syntax := rule kind [] text

/-- A mark, or a word with a fixed place. -/
def mark (text : String) : Syntax := .node { kind := text, isNamed := false, text } []

/-- An optional part that is not there. -/
def absent : Syntax := mark ""

/-- Nodes as the parts of a construct with these names. -/
def withFields : List String → List Syntax → List Syntax
  | field :: fields, .node info children :: ts =>
    .node { info with field := some field } children :: withFields fields ts
  | _, ts => ts

/-- A node whose parts have names. -/
def construct (kind : String) (fields : List String) (parts : List Syntax) : Syntax :=
  rule kind (withFields fields parts)

def function (kind : String) (name parameters body : Syntax) : Syntax :=
  construct kind ["name", "parameters", "body"] [name, parameters, body]

mutual
/-- An expression, or a member of an object, as the target of an assignment or a parameter. -/
def target? : Syntax → Option Syntax
  | .node info children =>
    match info.kind with
    | "array" => (targets? children).map (rule "array_pattern")
    | "object" => (targets? children).map (rule "object_pattern")
    | "spread_element" => (targets? children).map (rule "rest_pattern")
    | "shorthand_property_identifier" => some (leaf "shorthand_property_identifier_pattern" info.text)
    | "pair" =>
      match children with
      | key :: value => (targets? value).map fun ts => construct "pair_pattern" ["key", "value"] (key :: ts)
      | [] => none
    | "assignment_expression" => some (rule "assignment_pattern" children)
    | kind =>
      if ["identifier", "undefined", "member_expression", "subscript_expression",
          "parenthesized_expression", "array_pattern", "object_pattern",
          "object_assignment_pattern"].contains kind then some (.node info children)
      else none

/-- The targets among the parts of a construct. -/
def targets? : List Syntax → Option (List Syntax)
  | [] => some []
  | t :: ts =>
    if t.info.isNamed then do
      let target ← target? t
      return target :: (← targets? ts)
    else targets? ts
end

mutual
/-- No default value of a target is left in an object that is not one. -/
def isSettled : Syntax → Bool
  | .node info children =>
    (info.kind != "object" || children.all (·.kind != "object_assignment_pattern")) &&
      areSettled children

def areSettled : List Syntax → Bool
  | [] => true
  | t :: ts => isSettled t && areSettled ts
end

/-! ## Readers -/

abbrev Reader := StateT (List Char) Option

/-- A construct to be read. -/
inductive Goal where
  /-- Expressions with commas between them; `in` may be an operator. -/
  | expression (allowIn : Bool)
  | assignment (allowIn : Bool)
  | power
  | unary
  | primary
  | statement
  | statements

abbrev Rules := Goal → Reader Syntax

def peek : Reader Ahead := fun cs => (ahead cs).map (·, cs)

def isNext (lexeme : Lexeme) : Reader Bool := fun cs =>
  some ((ahead cs).any (·.lexeme == lexeme), cs)

/-- Reads a lexeme, if it is next. -/
def has (lexeme : Lexeme) : Reader Bool := fun cs =>
  match ahead cs with
  | some a => if a.lexeme == lexeme then some (true, a.rest) else some (false, cs)
  | none => some (false, cs)

def expect (text : String) : Reader Unit := do guard (← has (.mark text))

def expectWord (text : String) : Reader Unit := do guard (← has (.word text))

/-- Ends a statement: at a semicolon, before a closing brace, at a line break or at the end. -/
def endStatement : Reader Unit := do
  let a ← peek
  match a.lexeme with
  | .mark ";" => set a.rest
  | .mark "\x7d" => set a.here
  | .finish => set a.here
  | _ =>
    guard a.broken
    set a.here

/-- Reads items with commas between them up to a closing mark. The flag tells that the mark stands
behind a comma, or that there are no items. -/
def itemsUpTo (close : String) (item : Reader Syntax) :
    Nat → List Syntax → Reader (List Syntax × Bool)
  | 0, _ => failure
  | n + 1, done => do
    if ← has (.mark close) then return (done.reverse, true)
    let done := (← item) :: done
    if ← has (.mark close) then return (done.reverse, false)
    expect ","
    itemsUpTo close item n done

def items (close : String) (item : Reader Syntax) : Reader (List Syntax × Bool) := do
  itemsUpTo close item ((← get).length + 1) []

/-- The words that never name a variable. -/
def reservedWords : List String :=
  ["break", "case", "catch", "class", "const", "continue", "debugger", "default", "delete", "do",
    "else", "enum", "export", "extends", "false", "finally", "for", "function", "if", "import", "in",
    "instanceof", "new", "null", "return", "super", "switch", "this", "throw", "true", "try", "typeof",
    "var", "void", "while", "with"]

/-- The word names a variable, or may do so. -/
def isName (word : String) : Bool := !reservedWords.contains word

/-- A word in the place of a variable. -/
def nameLeaf (word : String) : Syntax :=
  leaf (if word == "undefined" then word else "identifier") word

/-- Reads a name, if there is one. -/
def name : Reader Syntax := do
  match ← peek with
  | ⟨_, .word w, _, rest⟩ =>
    if isName w then
      set rest
      return nameLeaf w
    else return absent
  | _ => return absent

/-- Reads an arrow on the same line, if there is one. -/
def hasArrow : Reader Bool := do
  let broken := (ahead (← get)).any (·.broken)
  if broken then return false else has (.mark "=>")

section Rules

variable (rules : Rules)

/-! ## Functions -/

/-- Reads statements between braces. -/
def body : Reader Syntax := do
  expect "\x7b"
  let statements ← rules .statements
  expect "\x7d"
  return statements

/-- Reads the body of an arrow function, after its arrow. -/
def arrow (parameters : List Syntax) : Reader Syntax := do
  let body ← if ← isNext (.mark "\x7b") then body rules else rules (.assignment true)
  return function "arrow_function" absent (rule "formal_parameters" parameters) body

/-- Reads an item of a list: an expression, or `...` and an expression. -/
def item : Reader Syntax := do
  if ← has (.mark "...") then return rule "spread_element" [← rules (.assignment true)]
  else rules (.assignment true)

/-- Reads the arguments of a call, after the opening parenthesis. -/
def arguments : Reader Syntax := do
  let (parts, _) ← items ")" (item rules)
  return rule "arguments" parts

/-- Reads parameters and body of a function, after its name. -/
def functionTail (kind : String) (name : Syntax) : Reader Syntax := do
  expect "("
  let (parts, _) ← items ")" do (target? (← item rules)).elim failure pure
  return function kind name (rule "formal_parameters" parts) (← body rules)

/-- Reads a function after the word `function`. -/
def functionRule (kind : String) : Reader Syntax := do
  let _ ← has (.mark "*")
  functionTail rules kind (← name)

/-! ## Members -/

def memberName : Reader Syntax := do
  let a ← peek
  set a.rest
  match a.lexeme with
  | .word name => return leaf "property_identifier" name
  | .privateName name => return leaf "private_property_identifier" name
  | .string body => return leaf "string" ("\"" ++ body ++ "\"")
  | .number text => return leaf "number" text
  | .mark "[" =>
    let e ← rules (.assignment true)
    expect "]"
    return rule "computed_property_name" [e]
  | _ => failure

def startsMemberName : Lexeme → Bool
  | .mark m => m == "["
  | .backtick => false
  | .finish => false
  | _ => true

/-- Drops the words `get`, `set` or `async` and a star from the front of a method. The flag tells
whether there were any. -/
def modifiers : Reader Bool := do
  let ⟨_, lexeme, _, rest⟩ ← peek
  let named := (ahead rest).any fun next => startsMemberName next.lexeme
  let starred := (ahead rest).any (·.lexeme == .mark "*")
  let isModifier := (lexeme == .word "get" || lexeme == .word "set") && named ||
    lexeme == .word "async" && (named || starred)
  if isModifier then set rest
  return (← has (.mark "*")) || isModifier

/-- Reads a member of an object. -/
def member : Reader Syntax := do
  if ← has (.mark "...") then return rule "spread_element" [← rules (.assignment true)]
  let modified ← modifiers
  let name ← memberName rules
  if ← isNext (.mark "(") then functionTail rules "method_definition" name
  else
    guard !modified
    if ← has (.mark ":") then
      return construct "pair" ["key", "value"] [name, ← rules (.assignment true)]
    guard (name.kind == "property_identifier" && isName name.text)
    if ← has (.mark "=") then
      let word := leaf "shorthand_property_identifier_pattern" name.text
      let value ← rules (.assignment true)
      return construct "object_assignment_pattern" ["left", "right"] [word, value]
    return leaf "shorthand_property_identifier" name.text

/-- Drops the word `static`, if a member follows it. -/
def skipStatic : Reader Bool := do
  let a ← peek
  let isMember := (ahead a.rest).any fun next =>
    startsMemberName next.lexeme || next.lexeme == .mark "*" || next.lexeme == .mark "\x7b"
  if a.lexeme == .word "static" && isMember then
    set a.rest
    return true
  return false

def classMember : Reader Syntax := do
  if (← skipStatic) && (← isNext (.mark "\x7b")) then
    return construct "class_static_block" ["body"] [← body rules]
  let _ ← modifiers
  let name ← memberName rules
  if ← isNext (.mark "(") then functionTail rules "method_definition" name
  else
    let value ← if ← has (.mark "=") then do pure [← rules (.assignment true)] else pure []
    endStatement
    return construct "field_definition" ["property", "value"] (name :: value)

/-- Reads the members of a class up to its closing brace. -/
def classMembers : Nat → List Syntax → Reader Syntax
  | 0, _ => failure
  | n + 1, done => do
    if ← has (.mark "\x7d") then return rule "class_body" done.reverse
    else if ← has (.mark ";") then classMembers n done
    else classMembers n ((← classMember rules) :: done)

/-! ## Operands -/

/-- Reads the name of a property after a dot. -/
def property : Reader Syntax := do
  let a ← peek
  set a.rest
  match a.lexeme with
  | .word name => return leaf "property_identifier" name
  | .privateName name => return leaf "private_property_identifier" name
  | _ => failure

/-- Reads the parts of a template up to its closing backtick. -/
def templateParts : Nat → String → List Syntax → Reader Syntax
  | 0, _, _ => failure
  | n + 1, raw, done => do
    let (text, cs) ← readTemplateText (← get)
    let raw := raw ++ String.ofList text
    match cs with
    | '$' :: '{' :: cs =>
      set cs
      let e ← rules (.expression true)
      let (_, cs) ← skip .code false (← get)
      guard (cs.head? == some '}')
      set cs.tail
      templateParts n raw (rule "template_substitution" [e] :: done)
    | _ =>
      set cs.tail
      return rule "template_string" done.reverse ("\x60" ++ raw ++ "\x60")

def template : Reader Syntax := do templateParts rules ((← get).length + 1) "" []

/-- Reads member accesses, templates and, if `calls`, calls after an expression. -/
def suffixes (calls : Bool) : Nat → Syntax → Reader Syntax
  | 0, _ => failure
  | n + 1, target => do
    let a ← peek
    let isChained := a.lexeme == .mark "?."
    if isChained then
      guard calls
      set a.rest
    let access (kind part : String) (reader : Reader Syntax) : Reader Syntax := do
      suffixes calls n (construct kind ["object", part] [target, ← reader])
    if ← has (.mark "[") then
      access "subscript_expression" "index" do
        let e ← rules (.expression true)
        expect "]"
        return e
    else if ← (if calls then has (.mark "(") else pure false) then
      suffixes calls n (construct "call_expression" ["function", "arguments"]
        [target, ← arguments rules])
    else if ← (if isChained then pure true else has (.mark ".")) then access "member_expression" "property" property
    else if ← has .backtick then
      suffixes calls n (construct "call_expression" ["function", "arguments"]
        [target, ← template rules])
    else return target

def suffixed (calls : Bool) (target : Syntax) : Reader Syntax := do
  suffixes rules calls ((← get).length + 1) target

/-- Reads a class after the word `class`. -/
def classRule (kind : String) : Reader Syntax := do
  let name ← name
  let heritage ←
    if ← has (.word "extends") then do suffixed rules true (← rules .primary) else pure absent
  expect "\x7b"
  let members ← classMembers rules ((← get).length + 1) []
  return construct kind ["name", "heritage", "body"] [name, heritage, members]

/-- What stood between parentheses is one expression, or several with commas. -/
def sequence? : List Syntax → Option Syntax
  | [] => none
  | e :: rest =>
    if e.kind == "spread_element" then none
    else if rest.isEmpty then some e
    else (sequence? rest).map fun r => rule "sequence_expression" [e, r]

/-- Reads a parenthesized expression, or an arrow function whose parameters are parenthesized. -/
def parenthesized : Reader Syntax := do
  let (parts, isOpen) ← items ")" (item rules)
  if ← hasArrow then arrow rules (← targets? parts)
  else
    guard !isOpen
    return rule "parenthesized_expression" [← sequence? parts]

/-- Reads what starts with the word `async`: a function, an arrow function, or a variable. -/
def async : Reader Syntax := do
  let cs ← get
  let a ← peek
  let plain := nameLeaf "async"
  if a.lexeme == .mark "=>" then
    set a.rest
    arrow rules [plain]
  else if a.broken then return plain
  else if ← has (.word "function") then functionRule rules "function_expression"
  else
    let parameters : Option (List Syntax × List Char) := match a.lexeme with
      | .word w => if isName w then some ([nameLeaf w], a.rest) else none
      | .mark "(" => (items ")" (item rules) a.rest).map fun ((parts, _), rest) => (parts, rest)
      | _ => none
    match parameters with
    | none => return plain
    | some (parts, rest) =>
      set rest
      if ← hasArrow then arrow rules (← targets? parts)
      else
        set cs
        return plain

/-- Reads `new.target`, or a constructor with its arguments, after the word `new`. -/
def new : Reader Syntax := do
  if ← has (.mark ".") then
    expectWord "target"
    return leaf "new.target" "new.target"
  let callee ← suffixed rules false (← rules .primary)
  let arguments ← if ← has (.mark "(") then do pure [← arguments rules] else pure []
  return construct "new_expression" ["constructor", "arguments"] (callee :: arguments)

def word (word : String) : Reader Syntax := do
  if word == "function" then functionRule rules "function_expression"
  else if word == "class" then classRule rules "class"
  else if word == "async" then async rules
  else if word == "new" then new rules
  else if ["this", "super", "null", "true", "false"].contains word then return leaf word word
  else if word == "import" then
    guard ((← isNext (.mark "(")) || (← isNext (.mark ".")))
    return leaf word word
  else
    guard (isName word)
    if ← hasArrow then arrow rules [nameLeaf word] else return nameLeaf word

/-- Marks between the items of an array; an item that is not there is absent. -/
def withCommas : List Syntax → List Syntax
  | [] => []
  | t :: ts =>
    let front := if t.info.isNamed then [t] else []
    front ++ (if ts.isEmpty && t.info.isNamed then [] else mark "," :: withCommas ts)

/-- Reads an operand without operators and suffixes. -/
def primary : Reader Syntax := do
  let a ← peek
  set a.rest
  match a.lexeme with
  | .mark "(" => parenthesized rules
  | .mark "[" =>
    let (parts, _) ← items "]" do if ← isNext (.mark ",") then pure absent else item rules
    return rule "array" (mark "[" :: withCommas parts ++ [mark "]"])
  | .mark "\x7b" =>
    let (parts, _) ← items "\x7d" (member rules)
    return rule "object" parts
  | .mark m =>
    guard (m == "/" || m == "/=")
    let (text, rest) ← readRegex a.here
    set rest
    return leaf "regex" (String.ofList text)
  | .backtick => template rules
  | .number text => return leaf "number" text
  | .string body => return leaf "string" ("\"" ++ body ++ "\"")
  | .privateName name => return leaf "private_property_identifier" name
  | .word w => word rules w
  | .finish => failure

/-! ## Operators -/

/-- An operator beside its operand. -/
def operation (kind operator : String) (operand : Syntax) : Syntax :=
  construct kind ["operator", "argument"] [mark operator, operand]

/-- Reads an operand with the operators right before and after it. -/
def unary : Reader Syntax := do
  let a ← peek
  let operator := match a.lexeme with
    | .mark m => m
    | .word w => w
    | _ => ""
  if ["!", "~", "-", "+", "typeof", "void", "delete"].contains operator then
    set a.rest
    return operation "unary_expression" operator (← rules .unary)
  else if operator == "++" || operator == "--" then
    set a.rest
    return operation "update_expression" operator (← rules .unary)
  else if operator == "await" then
    set a.rest
    return rule "await_expression" [← rules .unary]
  else
    let operand ← suffixed rules true (← primary rules)
    let a ← peek
    if a.broken then return operand
    else if ← has (.mark "++") then return operation "update_expression" "++" operand
    else if ← has (.mark "--") then return operation "update_expression" "--" operand
    else return operand

def binary (left : Syntax) (operator : String) (right : Syntax) : Syntax :=
  construct "binary_expression" ["left", "operator", "right"] [left, mark operator, right]

/-- Reads operands with powers, the last of which binds most. -/
def power : Reader Syntax := do
  let left ← unary rules
  if ← has (.mark "**") then return binary left "**" (← rules .power) else return left

/-- The other binary operators from loose to tight. -/
def operatorLevels : List (List String) :=
  [["??"], ["||"], ["&&"], ["|"], ["^"], ["&"], ["==", "!=", "===", "!=="],
    ["<", ">", "<=", ">=", "instanceof", "in"], ["<<", ">>", ">>>"], ["+", "-"], ["*", "/", "%"]]

/-- Reads one of some operators, if there is one. -/
def operator? (allowIn : Bool) (operators : List String) : Reader (Option String) := do
  let a ← peek
  let operator := match a.lexeme with
    | .mark m => m
    | .word w => if w == "in" && !allowIn then "" else w
    | _ => ""
  if operators.contains operator then
    set a.rest
    return some operator
  else return none

/-- Reads operators of one level with their right sides, after a left side. -/
def operatorTail (allowIn : Bool) (operators : List String) (right : Reader Syntax) :
    Nat → Syntax → Reader Syntax
  | 0, _ => failure
  | n + 1, left => do
    match ← operator? allowIn operators with
    | some operator => operatorTail allowIn operators right n (binary left operator (← right))
    | none => return left

/-- Reads operands with binary operators of these levels. -/
def operators (allowIn : Bool) : List (List String) → Reader Syntax
  | [] => power rules
  | level :: levels => do
    let left ← operators allowIn levels
    operatorTail allowIn level (operators allowIn levels) ((← get).length + 1) left

/-- The assignments that compute with the old value. -/
def compoundOperators : List String :=
  ["+=", "-=", "*=", "/=", "%=", "**=", "<<=", ">>=", ">>>=", "&=", "|=", "^=", "&&=", "||=", "??="]

/-- The expression can be written by a compound assignment. -/
def isSimpleTarget (t : Syntax) : Bool :=
  ["identifier", "member_expression", "subscript_expression", "parenthesized_expression"].contains
    t.kind

/-- The lexeme cannot start an expression. -/
def endsExpression : Lexeme → Bool
  | .mark m => [")", "]", "\x7d", ",", ";", ":"].contains m
  | .word w => w == "in" || w == "of"
  | .finish => true
  | _ => false

/-- Reads an assignment, or an expression without one. -/
def assignment (allowIn : Bool) : Reader Syntax := do
  if ← has (.word "yield") then
    let a ← peek
    if !(← has (.mark "*")) && (a.broken || endsExpression a.lexeme) then
      return rule "yield_expression" []
    return rule "yield_expression" [← rules (.assignment allowIn)]
  let left ← operators rules allowIn operatorLevels
  if ← has (.mark "?") then
    let yes ← rules (.assignment true)
    expect ":"
    let no ← rules (.assignment allowIn)
    return construct "ternary_expression" ["condition", "consequence", "alternative"] [left, yes, no]
  if ← has (.mark "=") then
    let target ← target? left
    let right ← rules (.assignment allowIn)
    return construct "assignment_expression" ["left", "right"] [target, right]
  match ← operator? allowIn compoundOperators with
  | none => return left
  | some _ =>
    guard (isSimpleTarget left)
    let right ← rules (.assignment allowIn)
    return construct "augmented_assignment_expression" ["left", "right"] [left, right]

/-- Reads expressions with commas between them. -/
def expression (allowIn : Bool) : Reader Syntax := do
  let first ← assignment rules allowIn
  if ← has (.mark ",") then return rule "sequence_expression" [first, ← rules (.expression allowIn)]
  else return first

end Rules

end Grammar
end PugTemplate
