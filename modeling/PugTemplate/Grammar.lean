import PugTemplate.Grammar.Statement
/-!
# A parser of scripts

The program takes the parser of its scripts as an argument. This one is for running the program where
no other is at hand; nothing else here refers to it. It reads expressions and statements, but no JSX
and no modules, and what it cannot read it takes for a mistake as a whole.

The rules are closed into one reader by giving each the reader of the level below it. Since a rule
calls readers only on text that is shorter than its own, as many levels as the text has characters,
and one more, are enough for every text.
-/

namespace PugTemplate
namespace Grammar

open Script (Syntax)

/-- The rule of each goal. -/
def step (rules : Rules) : Rules
  | .expression allowIn => expression rules allowIn
  | .assignment allowIn => assignment rules allowIn
  | .power => power rules
  | .unary => unary rules
  | .primary => primary rules
  | .statement => statement rules
  | .statements => do statements rules ((← get).length + 1) []

/-- Reads constructs that are nested at most so many levels deep. -/
def read : Nat → Rules
  | 0, _ => failure
  | n + 1, goal => step (read n) goal

/-- A statement of the script. Parentheses around all of its text are told by that text. -/
def statementNode (text : String) : Syntax → Syntax
  | .node info [.node inner [e]] =>
    if info.kind == "expression_statement" && inner.kind == "parenthesized_expression" then
      rule "expression_statement" [rule "parenthesized_expression" [mark "(", e, mark ")"] text] text
    else .node info [.node inner [e]]
  | t => t

/-- The tree of a text, which is one node for a mistake if the text is no script. -/
def parse : Script.Parser := fun text =>
  match read (text.length + 1) .statements text.toList with
  | some (.node _ statements, []) =>
    if areSettled statements then some (rule "program" (statements.map (statementNode text)) text)
    else some (rule "ERROR" [] text)
  | _ => some (rule "ERROR" [] text)

end Grammar
end PugTemplate
