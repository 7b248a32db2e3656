import PugTemplate.Token.Lexer.Rules
/-!
# The tokens of a template
-/

namespace PugTemplate

/-- Turns every kind of line end into a line feed. -/
def unifyLineEnds : List Char → List Char
  | '\r' :: '\n' :: cs => '\n' :: unifyLineEnds cs
  | '\r' :: cs => '\n' :: unifyLineEnds cs
  | c :: cs => c :: unifyLineEnds cs
  | [] => []

def dropMark : List Char → List Char
  | '\uFEFF' :: cs => cs
  | cs => cs

/-- The text without a byte order mark, with one kind of line end. -/
def normalize (source : String) : List Char := unifyLineEnds (dropMark source.toList)

namespace Setting

/-- Reads constructs until nothing more is to be read, at most a number of them. -/
def runSteps (env : Setting) : Nat → Lexer → Except Diagnostic Lexer
  | 0, s => if s.ended then .ok s else .error (env.unexpectedText s)
  | n + 1, s =>
    if s.ended then .ok s
    else do
      let (_, s) ← env.call .advance env.advance s
      runSteps env n s

/-- Reads a text to its end. Every construct has at least one character, and the end of the text is
one more. -/
def run (env : Setting) (s : Lexer) : Except Diagnostic Lexer := env.runSteps (s.rest.length + 1) s

/-- The setting in which tags may be interpolated into text to a depth. -/
def nesting (env : Setting) : Nat → Setting
  | 0 => { env with nested := none }
  | n + 1 => { env with nested := some { env.nesting n with interpolated := true }.run }

end Setting

/-- The tokens of a template. -/
def tokenize (env : Setting) (source : String) : Except Diagnostic (List Token) := do
  let s ← (env.nesting maxInterpolationDepth).run { rest := normalize source }
  pure s.tokens.reverse

end PugTemplate
