import PugTemplate.Compile
import PugTemplate.Config
/-!
# Arguments of a command

A command is a word, options after two dashes, and at most one operand. An option has its value
behind an equals sign or as the next argument. Each option is given at most once.
-/

namespace PugTemplate

inductive Arity where
  | none
  | one
  | atMostOne
  deriving DecidableEq, Repr, Inhabited

structure OptionRule where
  name : String
  arity : Arity := .none
  /-- The values that it can have. -/
  accepts : String → Bool := fun _ => true

/-- Why no command was found in arguments. -/
inductive UsageFault where
  | wrong
  | help
  deriving DecidableEq, Repr, Inhabited

structure Arguments where
  operand : Option String := none
  /-- Names of options, with their values. -/
  options : List (String × Option String) := []
  deriving DecidableEq, Repr, Inhabited

namespace Arguments

def has (a : Arguments) (name : String) : Bool := a.options.any fun o => o.1 == name

/-- The value of an option, if it is given and has one. -/
def value? (a : Arguments) (name : String) : Option String :=
  (a.options.find? fun o => o.1 == name).bind (·.2)

/-- Adds an operand, of which there can be one. -/
def addOperand (a : Arguments) (operand : String) : Except UsageFault Arguments :=
  if a.operand.isSome || operand.isEmpty then .error .wrong
  else .ok { a with operand := some operand }

def addOption (a : Arguments) (rule : OptionRule) (value : Option String) :
    Except UsageFault Arguments :=
  if a.has rule.name || !value.all rule.accepts then .error .wrong
  else .ok { a with options := a.options ++ [(rule.name, value)] }

/-- The argument is an option, not a value: it starts with a dash and goes on. -/
def isOption (arg : String) : Bool :=
  match arg.toList with
  | '-' :: _ :: _ => true
  | _ => false

/-- An option's name and what is behind its equals sign. -/
def cut (text : List Char) : String × Option String :=
  let name := String.ofList (text.takeWhile (· != '='))
  match text.dropWhile (· != '=') with
  | _ :: value => (name, some (String.ofList value))
  | [] => (name, none)

/-- Takes arguments apart, from left to right. All that follows two dashes are operands. -/
def scan (rules : List OptionRule) : List String → Arguments → Except UsageFault Arguments
  | [], a => .ok a
  | arg :: rest, a =>
    match arg.toList with
    | ['-', '-'] => rest.foldlM addOperand a
    | '-' :: '-' :: text =>
      let (name, attached) := cut text
      if name == "help" then .error (if attached.isNone then .help else .wrong)
      else
        match rules.find? fun rule => rule.name == name with
        | none => .error .wrong
        | some rule =>
          match rule.arity, attached, rest with
          | .none, none, rest => do scan rules rest (← a.addOption rule none)
          | .none, some _, _ => .error .wrong
          | .one, some value, rest => do scan rules rest (← a.addOption rule (some value))
          | .one, none, [] => .error .wrong
          | .one, none, value :: rest =>
            if isOption value then .error .wrong
            else do scan rules rest (← a.addOption rule (some value))
          | .atMostOne, some value, rest => do scan rules rest (← a.addOption rule (some value))
          | .atMostOne, none, [] => a.addOption rule none
          | .atMostOne, none, value :: rest =>
            if isOption value then do scan rules (value :: rest) (← a.addOption rule none)
            else do scan rules rest (← a.addOption rule (some value))
    | '-' :: c :: _ => .error (if c == 'h' then .help else .wrong)
    | _ => do scan rules rest (← a.addOperand arg)

end Arguments

/-- Options of a compilation that are given as arguments. They win over those of a file. -/
structure Overrides where
  /-- The file with the other options. -/
  config : Option String := none
  doctype : Option String := none
  indentation : Option String := none
  noDebug : Bool := false
  inlineHelpers : Bool := false
  name : Option String := none
  locals : Option Program.LocalsMode := none
  deriving DecidableEq, Repr, Inhabited

namespace Overrides

/-- The indentation when none is named. -/
def usualIndentation : String := "  "

def rules : List OptionRule :=
  [{ name := "config", arity := .one, accepts := fun path => !path.isEmpty },
    { name := "doctype", arity := .one },
    { name := "pretty", arity := .atMostOne },
    { name := "no-debug" },
    { name := "inline-runtime" },
    { name := "name", arity := .one },
    { name := "locals", arity := .one, accepts := fun w => (Program.LocalsMode.ofWord? w).isSome }]

def ofArguments (a : Arguments) : Overrides :=
  { config := a.value? "config"
    doctype := a.value? "doctype"
    indentation :=
      if a.has "pretty" then some ((a.value? "pretty").getD usualIndentation) else none
    noDebug := a.has "no-debug"
    inlineHelpers := a.has "inline-runtime"
    name := a.value? "name"
    locals := (a.value? "locals").bind Program.LocalsMode.ofWord? }

/-- Options with those in place that are given. -/
def apply (v : Overrides) (o : CompileOptions) : CompileOptions :=
  let p := o.program
  { o with program :=
    { p with
      doctype := v.doctype.orElse fun _ => p.doctype
      indentation := match v.indentation with
        | some text => if text.isEmpty then none else some text
        | none => p.indentation
      debug := p.debug && !v.noDebug
      inlineHelpers := p.inlineHelpers || v.inlineHelpers
      name := v.name.getD p.name
      locals := v.locals.getD p.locals } }

end Overrides

inductive Origin where
  | input
  | path (path : String)
  deriving DecidableEq, Repr, Inhabited

inductive Command where
  | compile (origin : Origin) (json : Bool) (overrides : Overrides)
  | lex (origin : Origin)
  | parse (origin : Origin)
  | help (word : Option String)
  deriving DecidableEq, Repr, Inhabited

namespace Command

def originOf (a : Arguments) : Except UsageFault Origin :=
  if a.has "stdin" then .ok .input
  else match a.operand with
    | some path => .ok (.path path)
    | none => .error .wrong

def ofWord (word : String) (args : List String) : Except UsageFault Command := do
  match word with
  | "compile" =>
    let a ← Arguments.scan ({ name := "stdin" } :: { name := "json" } :: Overrides.rules) args {}
    return .compile (← originOf a) (a.has "json") (Overrides.ofArguments a)
  | "lex" => return .lex (← originOf (← Arguments.scan [{ name := "stdin" }] args {}))
  | "parse" => return .parse (← originOf (← Arguments.scan [{ name := "stdin" }] args {}))
  | _ => .error .wrong

def words : List String := ["compile", "lex", "parse"]

/-- What arguments ask for. None are wrong arguments. -/
def ofArguments? : List String → Option Command
  | [] => none
  | ["help"] => some (.help none)
  | ["help", word] => if words.contains word then some (.help (some word)) else none
  | word :: args =>
    if word.startsWith "-h" || word == "--help" then some (.help none)
    else
      match ofWord word args with
      | .ok command => some command
      | .error .help => some (.help (some word))
      | .error .wrong => none

end Command
end PugTemplate
