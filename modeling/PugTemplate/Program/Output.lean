import PugTemplate.Text.Quoted
/-!
# The statements of a program

A program builds its result by writing to one variable. Writes that follow each other share one
statement: texts are joined to one literal, and expressions are added to it. The last statement is
written anew with every write that goes to it.
-/

namespace PugTemplate
namespace Program

/-- What a program does next. -/
inductive Write where
  | text (text : String)
  | expression (source : String)
  /-- Starts a choice by the value of an expression. -/
  | choice (subject : String)
  /-- Starts the branch of a choice that a value takes. -/
  | branch (value : String)
  | statement (code : String)
  deriving DecidableEq, Repr, Inhabited

def choiceCode (subject : String) : String := "switch (" ++ subject ++ ")\x7b"

/-- The statement that starts a branch of a choice. The branch that is left over has the value
`default`. -/
def branchCode (value : String) : String :=
  if value == "default" then "default:" else "case " ++ value ++ ":"

/-- How many operands a statement may add to its first one. -/
def maxJoins : Nat := 100

/-- What has been written last. -/
inductive Buffered where
  | text
  | code
  deriving DecidableEq, Repr, Inhabited

/-- The statements of a body, and what is known of the one that takes the next write. -/
structure Output where
  /-- The statements, of which the last one comes first. -/
  statements : List String := []
  /-- How many statements there were right after the last write. -/
  writtenAt : Option Nat := none
  /-- The operands so far, without a quote that they start with and without one that they end
  with. -/
  buffered : String := ""
  lastKind : Buffered := .text
  /-- A quote, if the operands start with a text. -/
  start : String := ""
  /-- How many operands have been added to the first one. -/
  joins : Nat := 0
  deriving DecidableEq, Repr, Inhabited

namespace Output

/-- A text as it stands between the quotes of a literal. -/
def inner (text : String) : String :=
  String.ofList (Text.Quoted.script text).toList.tail.dropLast

/-- The last statement takes the next write. -/
def canMerge (out : Output) : Bool :=
  out.writtenAt == some out.statements.length && out.joins < maxJoins

def replaceLast (out : Output) (statement : String) : Output :=
  match out.statements with
  | [] => out
  | _ :: before => { out with statements := statement :: before }

def addStatement (out : Output) (code : String) : Output :=
  { out with statements := code :: out.statements }

def addText (out : Output) (text : String) : Output :=
  if out.canMerge then
    let buffered := if out.lastKind == .code then out.buffered ++ " + \"" else out.buffered
    let joins := if out.lastKind == .code then out.joins + 1 else out.joins
    let out := { out with buffered := buffered ++ inner text, lastKind := .text, joins }
    out.replaceLast ("pug_html = pug_html + " ++ out.start ++ out.buffered ++ "\";")
  else
    let out := out.addStatement ("pug_html = pug_html + \"" ++ inner text ++ "\";")
    { out with
      writtenAt := some out.statements.length, buffered := inner text, lastKind := .text,
      start := "\"", joins := 0 }

def addExpression (out : Output) (source : String) : Output :=
  if out.canMerge then
    let buffered := if out.lastKind == .text then out.buffered ++ "\"" else out.buffered
    let out := { out with
      buffered := buffered ++ (" + (" ++ source ++ ")"), lastKind := .code, joins := out.joins + 1 }
    out.replaceLast ("pug_html = pug_html + (" ++ out.start ++ out.buffered ++ ");")
  else
    let out := out.addStatement ("pug_html = pug_html + (" ++ source ++ ");")
    { out with
      writtenAt := some out.statements.length, buffered := "(" ++ source ++ ")", lastKind := .code,
      start := "", joins := 0 }

def add (out : Output) : Write → Output
  | .text text => out.addText text
  | .expression source => out.addExpression source
  | .choice subject => out.addStatement (choiceCode subject)
  | .branch value => out.addStatement (branchCode value)
  | .statement code => out.addStatement code

def ofWrites (writes : List Write) : Output := writes.foldl add {}

def length (out : Output) : Nat := out.statements.length

def isEmpty (out : Output) : Bool := out.statements.isEmpty

/-- The statements, in order. -/
def lines (out : Output) : List String := out.statements.reverse

/-- The code, one statement a line. -/
def code (out : Output) : String := String.intercalate "\n" out.lines

end Output
end Program
end PugTemplate
