import PugTemplate.Command.Arguments
import PugTemplate.Command.Help
import PugTemplate.Command.Host
import PugTemplate.Command.Path
import PugTemplate.Node.ToValue
import PugTemplate.Value.Layout
/-!
# Commands

A command reads a template from a path or from the input of the program, and prints or writes what
becomes of it. All that it does to the outside goes through a `Host`.
-/

namespace PugTemplate

/-- Something that a command does; it may end the command with an exit status. -/
abbrev Action (m : Type → Type) := ExceptT Nat m

namespace ExitStatus

def success : Nat := 0

def failure : Nat := 1

/-- There was no command. -/
def usage : Nat := 2

end ExitStatus

def Program.Compiled.toValue (c : Program.Compiled) : Value :=
  .object [("code", .string c.code), ("runtime_functions", .array (c.helpers.map (.string ·.name)))]

/-- A number of thousandths, rounded to a number of decimals. -/
def decimalText (thousandths decimals : Nat) : String :=
  let unit := Nat.pow 10 (3 - decimals)
  let rounded := (thousandths + unit / 2) / unit
  let scale := Nat.pow 10 decimals
  let digits := toString (rounded % scale)
  toString (rounded / scale) ++ "." ++
    String.ofList (List.replicate (decimals - digits.length) '0') ++ digits

def durationText (micros : Nat) : String :=
  if micros < 1000 then toString micros ++ "μs"
  else if micros < 1000000 then decimalText micros 1 ++ "ms"
  else decimalText (micros / 1000) 2 ++ "s"

namespace Host

variable {m : Type → Type} [Monad m] (host : Host m) (compiler : Compiler)

/-! ## Messages -/

/-- Reports a failure in one line. -/
def complain (text : String) : m Unit := host.report ("Error: " ++ text ++ "\n")

def fail {α : Type} (text : String) : Action m α := do
  host.complain text
  throw ExitStatus.failure

/-- Reports what is wrong with a template and ends. -/
def orDiagnose {α : Type} (source : String) : Except Diagnostic α → Action m α
  | .ok a => pure a
  | .error d => do
    host.report (d.render host.palette source)
    throw ExitStatus.failure

def printValue (v : Value) : m Unit := host.print (v.layout ++ "\n")

/-- Says which file was written. -/
def announce (path : String) : m Unit :=
  let mark := if host.palette.reset.isEmpty then "✓" else "\x1b[32m✓" ++ host.palette.reset
  host.report ("  " ++ mark ++ " " ++ path ++ "\n")

/-- Says how many files were compiled since a time. -/
def summarize (count start : Nat) : m Unit := do
  let elapsed := durationText ((← host.clock) - start)
  let text := "✨ Compiled " ++ toString count ++ (if count == 1 then " file" else " files") ++
    " in " ++ elapsed
  let text := if host.palette.reset.isEmpty then text else "\x1b[1m" ++ text ++ host.palette.reset
  host.report ("\n" ++ text ++ "\n")

/-! ## Files -/

def readPath (path : String) : Action m String := do
  match ← host.read path with
  | .ok text => pure text
  | .error fault => host.fail (path ++ ": " ++ fault.message)

def readOrigin : Origin → Action m (String × Option String)
  | .input => do
    match ← host.input with
    | .ok text => pure (text, none)
    | .error fault => host.fail ("failed to read stdin: " ++ fault.message)
  | .path path => do return (← host.readPath path, some path)

def options (overrides : Overrides) : Action m CompileOptions := do
  match overrides.config with
  | none => pure (overrides.apply {})
  | some path =>
    match CompileOptions.read (← host.readPath path) with
    | .ok o => pure (overrides.apply o)
    | .error fault => host.fail (path ++ ": " ++ fault.message)

/-! ## Compilation -/

/-- Compiles a file to its sibling, and reports a failure. The answer says whether it went well. -/
def compileFile (o : CompileOptions) (path : String) : m Bool := do
  match ← host.read path with
  | .error fault =>
    host.complain (path ++ ": " ++ fault.message)
    pure false
  | .ok source =>
    match compiler.compile { o with file := some path } source with
    | .error d =>
      host.report (d.render host.palette source)
      pure false
    | .ok compiled =>
      let output := Path.withExtension path "js"
      match ← host.write output compiled.code with
      | .error fault =>
        host.complain (output ++ ": " ++ fault.message)
        pure false
      | .ok () =>
        host.announce output
        pure true

def isTemplate (path : String) : Bool := Path.extension? path == some "pug"

/-- Compiles a file that must be a template. -/
def compileOne (o : CompileOptions) (path : String) : Action m Unit := do
  if !isTemplate path then host.fail (path ++ " is not a .pug file")
  let start ← host.clock
  if !(← host.compileFile compiler o path) then throw ExitStatus.failure
  host.summarize 1 start

/-- Compiles all templates below a directory. -/
def compileAll (o : CompileOptions) (path : String) : Action m Unit := do
  let start ← host.clock
  let templates := (← host.walk path).filter isTemplate
  let outcomes ← templates.mapM fun template => host.compileFile compiler o template
  if outcomes.isEmpty then host.fail ("No .pug files found in " ++ path)
  host.summarize (outcomes.count true) start
  if outcomes.contains false then throw ExitStatus.failure

def compilePath (o : CompileOptions) (path : String) : Action m Unit := do
  if ← host.isFile path then host.compileOne compiler o path
  else if ← host.isDirectory path then host.compileAll compiler o path
  else host.fail (path ++ " does not exist")

/-- Compiles the input of the program and prints the result. -/
def compileInput (o : CompileOptions) (json : Bool) : Action m Unit := do
  let (source, _) ← host.readOrigin .input
  let compiled ← host.orDiagnose source (compiler.compile o source)
  if json then host.printValue compiled.toValue else host.print compiled.code

/-! ## Commands -/

def perform : Command → Action m Unit
  | .compile origin json overrides => do
    let o ← host.options overrides
    match origin with
    | .input => host.compileInput compiler o json
    | .path path => host.compilePath compiler o path
  | .lex origin => do
    let (source, file) ← host.readOrigin origin
    let tokens ← host.orDiagnose source (compiler.lex file source)
    host.printValue (.array (tokens.map Token.toValue))
  | .parse origin => do
    let (source, file) ← host.readOrigin origin
    let root ← host.orDiagnose source (compiler.parse file source)
    host.printValue root.toValue
  | .help word => host.print (Command.helpText word)

/-- Carries out what arguments ask for. The answer is the exit status. -/
def run (args : List String) : m Nat := do
  match Command.ofArguments? args with
  | none =>
    host.report (Command.helpText none)
    pure ExitStatus.usage
  | some command =>
    match ← (host.perform compiler command).run with
    | .ok () => pure ExitStatus.success
    | .error status => pure status

end Host
end PugTemplate
