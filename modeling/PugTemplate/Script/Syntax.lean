/-!
# Syntax trees of scripts

The concrete syntax trees that a parser of JavaScript gives. The parser is not part of this program:
whatever needs a tree takes a `Parser` as an argument, and sees of its trees what the nodes say about
themselves. A parser that meets a mistake goes on reading, so a tree may hold nodes for what was
wrong.
-/

namespace PugTemplate
namespace Script

/-- What a node of a tree says about itself. -/
structure NodeInfo where
  /-- The construct that the node stands for. A mark is of its own kind, such as `","`. -/
  kind : String
  /-- The node stands for a rule of the grammar, not for a mark or a word inside of one. -/
  isNamed : Bool := true
  /-- The part that the node has in the construct around it, if parts are told apart there. -/
  field : Option String := none
  /-- The parser has put the node in, and it has no text. -/
  isMissing : Bool := false
  /-- The text that the node covers. -/
  text : String
  /-- The byte at which that text starts. -/
  start : Nat := 0
  /-- The line on which it starts, counted from zero. -/
  row : Nat := 0
  /-- The byte of that line at which it starts. -/
  column : Nat := 0
  deriving DecidableEq, Repr, Inhabited

/-- A node with the nodes below it, in the order of the text. -/
inductive Syntax where
  | node (info : NodeInfo) (children : List Syntax)
  deriving Repr, Inhabited

/-- Gives the tree of a text, unless it gives up. -/
abbrev Parser := String → Option Syntax

namespace Syntax

def info : Syntax → NodeInfo
  | .node info _ => info

def children : Syntax → List Syntax
  | .node _ children => children

def kind (t : Syntax) : String := t.info.kind

def text (t : Syntax) : String := t.info.text

/-- The byte after the text of a node. -/
def stop (t : Syntax) : Nat := t.info.start + t.text.utf8ByteSize

/-- The part that a node has in the construct around it is this one. -/
def isField (name : String) (t : Syntax) : Bool := t.info.field == some name

/-- The part of a construct with a name. -/
def part? (name : String) (parts : List Syntax) : Option Syntax := parts.find? (isField name)

def child? (name : String) (t : Syntax) : Option Syntax := part? name t.children

/-- The parts that stand for rules of the grammar, without comments. -/
def named (parts : List Syntax) : List Syntax :=
  parts.filter fun t => t.info.isNamed && t.kind != "comment"

/-! ## Mistakes -/

/-- The node stands for text that fits nowhere. -/
def isError (t : Syntax) : Bool := t.kind == "ERROR"

mutual
/-- Something is wrong with the text of a node. -/
def hasError : Syntax → Bool
  | .node info children => info.kind == "ERROR" || info.isMissing || anyError children

/-- `hasError` of some tree. -/
def anyError : List Syntax → Bool
  | [] => false
  | t :: ts => t.hasError || anyError ts
end

mutual
/-- The first node, from the top and from the left, that stands for a mistake. -/
def firstError? : Syntax → Option Syntax
  | .node info children =>
    if info.kind == "ERROR" || info.isMissing then some (.node info children)
    else firstErrorAmong? children

/-- `firstError?` of the first tree that has one. -/
def firstErrorAmong? : List Syntax → Option Syntax
  | [] => none
  | t :: ts => t.firstError?.orElse fun _ => firstErrorAmong? ts
end

end Syntax

/-! ## Snippets -/

/-- A snippet between parentheses; a line break keeps a comment from taking the second one. -/
def wrap (snippet : String) : String := "(" ++ snippet ++ "\n)"

/-- The expression that the tree of a wrapped snippet is, if one pair of parentheses around one
expression is all there is. -/
def wrapped? (root : Syntax) (text : String) : Option Syntax :=
  match Syntax.named root.children with
  | [statement] =>
    if statement.kind != "expression_statement" then none
    else
      match Syntax.named statement.children with
      | inner :: _ =>
        if inner.kind != "parenthesized_expression" || inner.info.start != 0 ||
            inner.stop != text.utf8ByteSize then none
        else (Syntax.named inner.children).head?
      | [] => none
  | _ => none

end Script
end PugTemplate
