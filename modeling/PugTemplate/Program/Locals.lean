import PugTemplate.Script.Scope
/-!
# Variables of a program's body

A body can use the values that the program is given as if they were variables. For that it is put
into a function with one parameter for each variable that the body does not declare itself.
-/

namespace PugTemplate
namespace Program

/-- The names that programs declare. -/
def internalNames : List String :=
  ["pug", "pug_mixins", "pug_interp", "pug_debug_filename", "pug_debug_line", "pug_debug_sources",
    "pug_html"]

/-- Names that are no parameters. -/
def reservedNames : List String := ["locals", "undefined", "arguments", "eval"]

/-- A text occurs inside of another. -/
def occursIn (part : List Char) : List Char → Bool
  | [] => part.isEmpty
  | c :: cs => part.isPrefixOf (c :: cs) || occursIn part cs

/-- Makes a name longer until it does not occur in a body, at most a number of times. -/
def lengthen (body : List Char) : Nat → List Char → List Char
  | 0, name => name
  | n + 1, name => if occursIn name body then lengthen body n (name ++ ['_']) else name

/-- A name that does not occur in a body. A name that is longer than the body does not. -/
def freshName (body : String) : String :=
  String.ofList (lengthen body.toList (body.length + 1) "locals_for_with".toList)

/-- The variables of a body that are to be parameters. -/
def parameterNames (parse : Script.Parser) (body : String) (exclude : List String) : List String :=
  (parse.freeVariables body).filter fun name =>
    !internalNames.contains name && !exclude.contains name && !reservedNames.contains name

/-- The value of a parameter: a member of the object if that has it, or else a variable from
outside. -/
def argument (object name : String) : String :=
  ",\"" ++ name ++ "\" in " ++ object ++ " ? " ++ object ++ "." ++ name ++ " : typeof " ++ name ++
    " !== \"undefined\" ? " ++ name ++ " : undefined"

/-- A body whose variables are members of the object that the program is given. -/
def wrapLocals (parse : Script.Parser) (body : String) (exclude : List String) : String :=
  let names := parameterNames parse body exclude
  if names.isEmpty then body
  else
    let object := freshName body
    ";var " ++ object ++ " = (locals || \x7b\x7d);(function (" ++ String.intercalate ", " names ++
      ") \x7b" ++ body ++ "\x7d.call(this" ++ String.join (names.map (argument object)) ++ "));"

end Program
end PugTemplate
