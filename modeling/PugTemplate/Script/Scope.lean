import PugTemplate.Script.Syntax
/-!
# Scopes of a script

Which names a script uses without declaring them. A name is declared for the whole of the function
around it, wherever in that function the declaration stands; names of functions, classes and
handlers' parameters count as declared there too. Of a function only its body is looked at. A text
with mistakes is gone through like any other, as far as the parser has made a tree of it.
-/

namespace PugTemplate
namespace Script
namespace Syntax

mutual
/-- The names that a pattern binds. -/
def boundNames : Syntax → List String
  | .node info children =>
    match info.kind with
    | "identifier" => [info.text]
    | "shorthand_property_identifier_pattern" => [info.text]
    | "assignment_pattern" => partBoundNames "left" children
    | "object_assignment_pattern" => partBoundNames "left" children
    | "pair_pattern" => partBoundNames "value" children
    | _ => allBoundNames children

/-- `boundNames` of all parts that are no marks. -/
def allBoundNames : List Syntax → List String
  | [] => []
  | t :: ts => (if t.info.isNamed then t.boundNames else []) ++ allBoundNames ts

/-- `boundNames` of the part with a name. -/
def partBoundNames (name : String) : List Syntax → List String
  | [] => []
  | t :: ts => if t.isField name then t.boundNames else partBoundNames name ts
end

/-- The construct has a scope of its own. -/
def isFunction (kind : String) : Bool :=
  kind == "function_declaration" || kind == "function_expression" || kind == "function" ||
    kind == "generator_function" || kind == "generator_function_declaration" ||
    kind == "arrow_function" || kind == "method_definition"

/-- The construct declares its own name, and nothing else, in the scope around it. -/
def isNamedDeclaration (kind : String) : Bool :=
  kind == "function_declaration" || kind == "generator_function_declaration" ||
    kind == "class_declaration"

/-- The loop declares the variables on its left side. -/
def declaresLeft (parts : List Syntax) : Bool :=
  (part? "kind" parts).any fun word =>
    word.kind == "var" || word.kind == "let" || word.kind == "const"

/-- The names that a construct declares by itself, in the scope around it. -/
def ownNames (kind : String) (parts : List Syntax) : List String :=
  match kind with
  | "variable_declarator" => partBoundNames "name" parts
  | "for_in_statement" => if declaresLeft parts then partBoundNames "left" parts else []
  | "catch_clause" => partBoundNames "parameter" parts
  | _ => []

mutual
/-- The names that a part of a function declares in it. -/
def declaredNames : Syntax → List String
  | .node info children =>
    if isNamedDeclaration info.kind then partBoundNames "name" children
    else if isFunction info.kind then []
    else ownNames info.kind children ++ allDeclaredNames children

/-- `declaredNames` of all parts that are no marks. -/
def allDeclaredNames : List Syntax → List String
  | [] => []
  | t :: ts => (if t.info.isNamed then t.declaredNames else []) ++ allDeclaredNames ts
end

/-- The names of a function's own scope. -/
def functionNames (kind : String) (parts : List Syntax) : List String :=
  (if kind == "function_declaration" then [] else partBoundNames "name" parts) ++
    partBoundNames "parameters" parts ++ partBoundNames "parameter" parts ++
    ((part? "body" parts).map fun body => allDeclaredNames body.children).getD []

/-- Adds a name that is used: one that is declared, or known already, changes nothing. -/
def noteUse (scopes : List (List String)) (found : List String) (name : String) : List String :=
  if scopes.any (·.contains name) || found.contains name then found else found ++ [name]

/-- The node is a name that is used as a variable. -/
def isName (kind : String) : Bool := kind == "identifier" || kind == "shorthand_property_identifier"

mutual
/-- The undeclared names of a tree inside of scopes, after those found before it. -/
def freeNames (scopes : List (List String)) (found : List String) : Syntax → List String
  | .node info children =>
    if isFunction info.kind then
      partFreeNames "body" (functionNames info.kind children :: scopes) found children
    else if isName info.kind then noteUse scopes found info.text
    else allFreeNames scopes found children

/-- `freeNames` of trees, one after the other. -/
def allFreeNames (scopes : List (List String)) (found : List String) : List Syntax → List String
  | [] => found
  | t :: ts => allFreeNames scopes (t.freeNames scopes found) ts

/-- `freeNames` of the part with a name. -/
def partFreeNames (name : String) (scopes : List (List String)) (found : List String) :
    List Syntax → List String
  | [] => found
  | t :: ts => if t.isField name then t.freeNames scopes found else partFreeNames name scopes found ts
end

end Syntax

/-- The undeclared names of a script, in the order of first use. -/
def Parser.freeVariables (parse : Parser) (script : String) : List String :=
  match parse script with
  | some root => root.freeNames [Syntax.allDeclaredNames root.children] []
  | none => []

end Script
end PugTemplate
