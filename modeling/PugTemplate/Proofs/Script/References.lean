import PugTemplate.Script.Scope
/-!
# References and their scopes

The occurrences of names in a script, by the rules of the language. A variable that `var` declares,
a parameter and a function's name belong to the function around them; what `let` and `const` declare
and a class's name belong to the block around them; a handler's parameter belongs to the handler. The
default values of parameters see the parameters, but not the variables of the body.

What `freeVariables` goes by is noted at each occurrence too: whether it is looked at, and whether a
function around it declares the name in some part of it.
-/

namespace PugTemplate

open List
namespace Script
namespace Syntax

/-! ## Declarations -/

/-- The names of the variables in a declaration. -/
def declaratorNames (parts : List Syntax) : List String :=
  parts.flatMap fun t =>
    if t.info.isNamed && t.kind == "variable_declarator" then partBoundNames "name" t.children else []

/-- The loop declares its variable for each of its turns. -/
def declaresEach (parts : List Syntax) : Bool :=
  declaresLeft parts && !(part? "kind" parts).any fun word => word.kind == "var"

/-- The names that a construct by itself declares for the function around it. -/
def ownVarNames (kind : String) (parts : List Syntax) : List String :=
  match kind with
  | "variable_declaration" => declaratorNames parts
  | "function_declaration" => partBoundNames "name" parts
  | "generator_function_declaration" => partBoundNames "name" parts
  | "for_in_statement" =>
    if declaresLeft parts && !declaresEach parts then partBoundNames "left" parts else []
  | _ => []

mutual
/-- The names that a tree declares for the function around it. Those inside of another function or
of a class stay there. -/
def varNames : Syntax → List String
  | .node info children =>
    ownVarNames info.kind children ++
      if isFunction info.kind || info.kind == "class" || info.kind == "class_declaration" then []
      else allVarNames children

/-- `varNames` of all parts that are no marks. -/
def allVarNames : List Syntax → List String
  | [] => []
  | t :: ts => (if t.info.isNamed then t.varNames else []) ++ allVarNames ts
end

/-- The names that statements declare for the block that they stand in. -/
def lexicalNames (parts : List Syntax) : List String :=
  parts.flatMap fun t =>
    if !t.info.isNamed then []
    else if t.kind == "lexical_declaration" then declaratorNames t.children
    else if t.kind == "class_declaration" then partBoundNames "name" t.children
    else []

/-- The names that a construct declares for its own parts. All cases of a `switch` are one block, a
loop is one for what its head declares, and a block of a class is like a function. -/
def scopeNames (kind : String) (parts : List Syntax) : List String :=
  match kind with
  | "program" => lexicalNames parts
  | "statement_block" => lexicalNames parts
  | "for_statement" => lexicalNames parts
  | "switch_body" => (parts.filter (·.info.isNamed)).flatMap fun t =>
      if t.kind == "switch_case" || t.kind == "switch_default" then lexicalNames t.children else []
  | "class_static_block" => allVarNames parts
  | "for_in_statement" => if declaresEach parts then partBoundNames "left" parts else []
  | "catch_clause" => partBoundNames "parameter" parts
  | "class" => partBoundNames "name" parts
  | "class_declaration" => partBoundNames "name" parts
  | _ => []

/-- The names that the head of a function declares: its parameters, and its own name if it is an
expression. -/
def headNames (kind : String) (parts : List Syntax) : List String :=
  (if isNamedDeclaration kind || kind == "method_definition" then [] else partBoundNames "name" parts) ++
    partBoundNames "parameters" parts ++ partBoundNames "parameter" parts

/-! ## Declarations in any part -/

mutual
/-- The nodes of a tree that are not inside of a function or of a declared class. -/
def outerNodes : Syntax → List Syntax
  | .node info children =>
    .node info children ::
      if isFunction info.kind || info.kind == "class_declaration" then []
      else allOuterNodes children

/-- `outerNodes` of all parts that are no marks. -/
def allOuterNodes : List Syntax → List Syntax
  | [] => []
  | t :: ts => (if t.info.isNamed then t.outerNodes else []) ++ allOuterNodes ts
end

/-- The names that a node declares, for whatever part of the function around it. -/
def declaredBy (t : Syntax) : List String :=
  match t.kind with
  | "variable_declarator" => partBoundNames "name" t.children
  | "function_declaration" => partBoundNames "name" t.children
  | "generator_function_declaration" => partBoundNames "name" t.children
  | "class_declaration" => partBoundNames "name" t.children
  | "for_in_statement" => if declaresLeft t.children then partBoundNames "left" t.children else []
  | "catch_clause" => partBoundNames "parameter" t.children
  | _ => []

/-- The names that are declared in some part of a function's body, or of a program. -/
def somewhereDeclared (parts : List Syntax) : List String := (allOuterNodes parts).flatMap declaredBy

/-- The names that a function declares in its head or in some part of its body. What stands in the
computed name of a method counts as well. -/
def somewhereNames (kind : String) (parts : List Syntax) : List String :=
  (if kind == "function_declaration" then [] else partBoundNames "name" parts) ++
    partBoundNames "parameters" parts ++ partBoundNames "parameter" parts ++
    ((part? "body" parts).map fun body => somewhereDeclared body.children).getD []

/-! ## Occurrences -/

structure Surroundings where
  /-- The names that are declared for this place. -/
  inScope : List String := []
  /-- The names that a function around this place, or the program, declares in some part of it. -/
  somewhere : List String := []
  /-- The place is not in the head of a function. -/
  isLookedAt : Bool := true
  /-- A name that stands here is declared, not referred to. -/
  isBinding : Bool := false
  deriving DecidableEq, Repr

structure Occurrence extends Surroundings where
  name : String
  deriving DecidableEq, Repr

namespace Occurrence

/-- The name is referred to, and not declared for this place. -/
def isFree (o : Occurrence) : Bool := !o.isBinding && !o.inScope.contains o.name

/-- The name is looked at, and no function around this place declares it anywhere. -/
def isReported (o : Occurrence) : Bool := o.isLookedAt && !o.somewhere.contains o.name

end Occurrence

/-- The first part with a name, by the parts before it. -/
def isPart (name : String) (before : List Syntax) (part : Syntax) : Bool :=
  part.isField name && !before.any (isField name)

def functionPart (s : Surroundings) (kind : String) (parts before : List Syntax) (part : Syntax) :
    Surroundings :=
  if isPart "body" before part then
    { s with
      inScope := allVarNames part.children ++ headNames kind parts ++ s.inScope
      somewhere := somewhereNames kind parts ++ s.somewhere
      isBinding := false }
  else if part.isField "parameters" || part.isField "parameter" then
    { s with inScope := headNames kind parts ++ s.inScope, isLookedAt := false, isBinding := true }
  else
    -- the name of a method is an expression that stands outside of it
    { s with isLookedAt := false, isBinding := kind != "method_definition" }

/-- A name that stands in a part of a construct is declared, by whether one is declared in the
construct. -/
def bindsPart (binding : Bool) (kind : String) (parts before : List Syntax) (part : Syntax) : Bool :=
  match kind with
  | "variable_declarator" => isPart "name" before part
  | "catch_clause" => isPart "parameter" before part
  | "for_in_statement" => declaresLeft parts && isPart "left" before part
  | "class" => isPart "name" before part
  | "class_declaration" => isPart "name" before part
  | "assignment_pattern" => binding && isPart "left" before part
  | "object_assignment_pattern" => binding && isPart "left" before part
  | "pair_pattern" => binding && isPart "value" before part
  | _ => binding

/-- The surroundings of a part of a construct. -/
def ofPart (s : Surroundings) (kind : String) (parts before : List Syntax) (part : Syntax) :
    Surroundings :=
  if isFunction kind then functionPart s kind parts before part
  else
    { s with
      inScope := scopeNames kind parts ++ s.inScope
      isBinding := bindsPart s.isBinding kind parts before part }

/-- The name that a node is. A name that is assigned to by its member of an object is not looked at.
-/
def occurrence? (s : Surroundings) (info : NodeInfo) : Option Occurrence :=
  match info.kind with
  | "identifier" => some { s with name := info.text }
  | "shorthand_property_identifier" => some { s with name := info.text, isBinding := false }
  | "shorthand_property_identifier_pattern" => some { s with name := info.text, isLookedAt := false }
  | _ => none

mutual
/-- The names of a tree, in the order of the text. -/
def occurrences (s : Surroundings) : Syntax → List Occurrence
  | .node info children =>
    (occurrence? s info).toList ++
      if isName info.kind then [] else allOccurrences (ofPart s info.kind children) [] children

/-- `occurrences` of parts, with the surroundings of each. -/
def allOccurrences (ofPart : List Syntax → Syntax → Surroundings) (before : List Syntax) :
    List Syntax → List Occurrence
  | [] => []
  | t :: ts => t.occurrences (ofPart before t) ++ allOccurrences ofPart (before ++ [t]) ts
end

def scriptOccurrences (root : Syntax) : List Occurrence :=
  root.occurrences
    { inScope := allVarNames root.children, somewhere := somewhereDeclared root.children }

end Syntax

open Syntax (Occurrence)

/-- The names of some occurrences, each once and in the order of first occurrence. -/
def namesOf (test : Occurrence → Bool) (os : List Occurrence) : List String :=
  ((os.filter test).map (·.name)).eraseDups

end Script
end PugTemplate
