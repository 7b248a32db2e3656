import PugTemplate.Markup.Attribute
import PugTemplate.Node.Basic
import PugTemplate.Program.Helper
import PugTemplate.Script.Judge
/-!
# Code for attributes

Attributes become an expression for their markup, or an object that is given to a mixin. Whatever is
constant is worked out now.
-/

namespace PugTemplate
namespace Program

/-- What the code for attributes gives. -/
inductive AttributeForm where
  | html
  | object
  deriving DecidableEq, Repr, Inhabited

/-- Code, with the helpers that it calls, in order. -/
structure Coded (α : Type) where
  code : α
  helpers : List Helper := []
  deriving DecidableEq, Repr, Inhabited

/-- What stays the same while attributes are coded. -/
structure AttributeSetting where
  evaluator : Evaluator
  /-- Attributes that are just true have a short form. -/
  terse : Bool
  form : AttributeForm
  /-- The code that reaches a helper. -/
  reach : Helper → String

/-- The value of an attribute: a constant, or code. -/
inductive Folded where
  | constant (value : Value)
  | dynamic (source : String)
  deriving Repr, Inhabited

/-- Adds a string literal to parts of code. If the last part is a literal too, the two become one: the
quotes between them are cut off. -/
def addLiteral (literal : String) : List String → List String
  | [] => [literal]
  | [last] =>
    if last.endsWith "\"" then [String.ofList (last.toList.dropLast ++ literal.toList.tail)]
    else [last, literal]
  | part :: parts => part :: addLiteral literal parts

def boolCode (b : Bool) : String := if b then "true" else "false"

namespace AttributeSetting

def fold (env : AttributeSetting) (source : String) : Folded :=
  match env.evaluator source with
  | some value => .constant value
  | none => .dynamic source

def foldStyle (env : AttributeSetting) (source : String) : Coded Folded :=
  match env.evaluator source with
  | some value => { code := .constant (.string (Markup.style value)) }
  | none =>
    { code := .dynamic (env.reach .style ++ "(" ++ source ++ ")"), helpers := [.style] }

def add (env : AttributeSetting) (key : String) (value : Folded) (escape : Bool)
    (parts : List String) : Coded (List String) :=
  let quoted := Text.Quoted.script key
  match value, env.form with
  | .constant value, .html =>
    let text := Markup.attributeText key value escape env.terse
    { code := addLiteral (Text.Quoted.script text) parts }
  | .constant value, .object =>
    let value := if escape then Markup.escapeValue value else value
    { code := parts ++ [quoted ++ ": " ++ value.script] }
  | .dynamic source, .html =>
    let call := env.reach .attr ++ "(" ++ quoted ++ ", " ++ source ++ ", " ++ boolCode escape ++ ", " ++
      boolCode env.terse ++ ")"
    { code := parts ++ [call], helpers := [.attr] }
  | .dynamic source, .object =>
    if escape then
      { code := parts ++ [quoted ++ ": " ++ env.reach .escape ++ "(" ++ source ++ ")"]
        helpers := [.escape] }
    else { code := parts ++ [quoted ++ ": " ++ source] }

def foldValue (env : AttributeSetting) (a : Attribute) : Coded Folded :=
  if a.name == "style" then env.foldStyle a.value.source else { code := env.fold a.value.source }

def addOther (env : AttributeSetting) (a : Attribute) (acc : Coded (List String)) :
    Coded (List String) :=
  let folded := env.foldValue a
  let next := env.add a.name folded.code a.escape acc.code
  { code := next.code, helpers := acc.helpers ++ (folded.helpers ++ next.helpers) }

def addOthers (env : AttributeSetting) :
    List Attribute → Coded (List String) → Coded (List String)
  | [], acc => acc
  | a :: as, acc => addOthers env as (env.addOther a acc)

/-- A class source as it stands in a call, and whether it is still to be escaped there. A constant
is escaped now. -/
def classItem (env : AttributeSetting) (a : Attribute) : String × Bool :=
  match env.evaluator a.value.source with
  | some value => ((if a.escape then Markup.escapeValue value else value).script, false)
  | none => (a.value.source, a.escape)

def classParts (env : AttributeSetting) (classes : List Attribute) : Coded (List String) :=
  if classes.isEmpty then { code := [] }
  else
    match classes.mapM fun a => env.evaluator a.value.source with
    | some values =>
      let text := Markup.classes (.array values) (classes.map (·.escape))
      env.add "class" (.constant (.string text)) false []
    | none =>
      let items := classes.map env.classItem
      let flags := Value.array (items.map fun item => .bool item.2)
      let call := env.reach .classes ++ "([" ++ String.intercalate "," (items.map (·.1)) ++ "], " ++
        flags.script ++ ")"
      let parts := env.add "class" (.dynamic call) false []
      { parts with helpers := .classes :: parts.helpers }

def code (env : AttributeSetting) (attributes : List Attribute) : Coded String :=
  let others := env.addOthers (attributes.filter fun a => a.name != "class") { code := [] }
  let classes := env.classParts (attributes.filter fun a => a.name == "class")
  let sources := classes.code ++ others.code
  let helpers := others.helpers ++ classes.helpers
  match env.form with
  | .html =>
    { code := if sources.isEmpty then "\"\"" else String.intercalate "+" sources, helpers }
  | .object => { code := "\x7b" ++ String.intercalate "," sources ++ "\x7d", helpers }

end AttributeSetting
end Program
end PugTemplate
