import PugTemplate.Script.Constant
import PugTemplate.Text.Blank
/-!
# Judges of expressions

What the reader of a template and the writer of its code ask about the expressions in it. Both
questions can be answered by reading the expression as JavaScript, or by any other function of its
text.
-/

namespace PugTemplate

/-- Why a text is no expression, with the place in the text, counted from zero. -/
structure ExpressionFault where
  message : String
  line : Nat := 0
  column : Nat := 0
  deriving DecidableEq, Repr, Inhabited

/-- Finds the fault of a text that should be an expression. -/
abbrev Validator := String → Option ExpressionFault

/-- Finds the value of an expression that is constant. -/
abbrev Evaluator := String → Option Value

def Validator.accepts (validator : Validator) (source : String) : Bool := (validator source).isNone

def Validator.acceptAll : Validator := fun _ => none

def Evaluator.foldNothing : Evaluator := fun _ => none

namespace Script

/-- The characters of a line before a byte of it, or all of them if the byte is inside of one. -/
def beforeByte : Nat → List Char → List Char
  | 0, _ => []
  | _, [] => []
  | n, c :: cs => if c.utf8Size ≤ n then c :: beforeByte (n - c.utf8Size) cs else c :: cs

/-- A fault at a place of the wrapped snippet, which has one more character on its first line and one
more line. -/
def locate (snippet message : String) (row column : Nat) : ExpressionFault :=
  let line := ((Text.lines (wrap snippet).toList)[row]?).getD []
  let before := (beforeByte column line).length
  { message
    line := min row (max 1 (Text.lines snippet.toList).length - 1)
    column := if row == 0 then before - 1 else before }

namespace Parser

/-- Accepts the snippets that are one expression for a parser. -/
def validator (parse : Parser) : Validator := fun snippet =>
  match parse (wrap snippet) with
  | none => some { message := "Unable to parse expression" }
  | some root =>
    if root.hasError then
      let fault := (root.firstError?.getD root).info
      let message :=
        if fault.isMissing then "Missing \x60" ++ fault.kind ++ "\x60" else "Unexpected token"
      some (locate snippet message fault.row fault.column)
    else if (wrapped? root (wrap snippet)).isNone then
      some { message := "Expected a single expression" }
    else none

/-- Folds the snippets that are one constant expression for a parser. -/
def evaluator (parse : Parser) : Evaluator := fun snippet => do
  let root ← parse (wrap snippet)
  if root.hasError then none else (← wrapped? root (wrap snippet)).value?

end Parser
end Script
end PugTemplate
