import PugTemplate.Node.OfTokens
import PugTemplate.Program.Assemble
import PugTemplate.Token.Lexer
/-!
# Compiling templates
-/

namespace PugTemplate

/-- Compiles templates with the parser of its scripts, its judges of expressions and its extensions.
-/
structure Compiler where
  parser : Script.Parser
  validator : Validator := parser.validator
  evaluator : Evaluator := parser.evaluator
  plugins : Plugins := {}

structure CompileOptions where
  file : Option String := none
  program : Program.Options := {}
  deriving DecidableEq, Repr, Inhabited

namespace Compiler

def lex (c : Compiler) (file : Option String) (source : String) : Except Diagnostic (List Token) :=
  tokenize { file, validator := c.validator, hooks := c.plugins.lexer } source

def parse (c : Compiler) (file : Option String) (source : String) : Except Diagnostic Block := do
  Block.ofTokens file c.plugins (← c.lex file source)

/-- The program of a template. -/
def compile (c : Compiler) (options : CompileOptions) (source : String) :
    Except Diagnostic Program.Compiled := do
  let root ← c.parse options.file source
  Program.generate c.parser c.evaluator root.mixinUse options.program root

end Compiler
end PugTemplate
