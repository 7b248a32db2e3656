import PugTemplate.Program.Generate
import PugTemplate.Program.Locals
/-!
# Whole programs
-/

namespace PugTemplate
namespace Program

/-- A program, and the helpers that it has copies of. -/
structure Compiled where
  code : String
  helpers : List Helper := []
  deriving DecidableEq, Repr, Inhabited

/-- A body that reaches the values that it is given. -/
def withLocals (parse : Script.Parser) (mode : LocalsMode) (helpers : List Helper) (body : String) :
    String :=
  match mode with
  | .selfObject => "var self = locals || \x7b\x7d;" ++ body
  | .variables => wrapLocals parse body (helpers.map fun h => "pug_" ++ h.name)
  | .bare => body

/-- A body that tells which line an error comes from. -/
def withDebug (options : Options) (body : String) : String :=
  if !options.debug then body
  else
    let (body, source) := match options.sources with
      | some sources =>
        let object := Value.object (sources.map fun (file, source) => (file, .string source))
        ("var pug_debug_sources = " ++ object.script ++ ";\n" ++ body,
          ", pug_debug_sources[pug_debug_filename]")
      | none => (body, "")
    let rethrow := options.helperPrefix ++ Helper.name .rethrow
    "var pug_debug_filename, pug_debug_line;try \x7b" ++ body ++ "\x7d catch (err) \x7b" ++ rethrow ++
      "(err, pug_debug_filename, pug_debug_line" ++ source ++ ");\x7d"

/-- A program from its writes and the helpers that it needs copies of. -/
def assemble (parse : Script.Parser) (options : Options) (writes : List Write)
    (helpers : List Helper) : Compiled :=
  let helpers := Helper.all.filter helpers.contains
  let body := withDebug options
    (withLocals parse options.locals helpers (Output.ofWrites writes).code)
  let bundle := Helper.bundle helpers
  { code := (if bundle.isEmpty then "" else bundle ++ "\n") ++ "function " ++ options.name ++
      "(locals) \x7bvar pug_html = \"\", pug_mixins = \x7b\x7d, pug_interp;" ++ body ++
      ";return pug_html;\x7d"
    helpers }

def startState (options : Options) : WriterState :=
  let s : WriterState :=
    { helpers := if options.debug && options.inlineHelpers then [.rethrow] else [] }
  match options.doctype with
  | some name => s.choose name
  | none => s

def emitTree (env : WriterSetting) (root : Block) : Emit Unit := do
  Emit.onlyIf env.isPretty (Emit.statement "var pug_indent = [];")
  emitBlock env root

/-- The program of a tree. -/
def generate (parse : Script.Parser) (evaluator : Evaluator) (mixins : MixinUse) (options : Options)
    (root : Block) : Except Diagnostic Compiled := do
  let (_, writes, s) ← emitTree { evaluator, mixins, options } root (startState options)
  pure (assemble parse options writes s.helpers)

end Program
end PugTemplate
