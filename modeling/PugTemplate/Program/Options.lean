/-!
# Options of programs
-/

namespace PugTemplate
namespace Program

/-- How a program reaches the values that it is given. -/
inductive LocalsMode where
  /-- Their names are variables. -/
  | variables
  /-- They are members of `self`. -/
  | selfObject
  /-- They are members of `locals`. -/
  | bare
  deriving DecidableEq, Repr, Inhabited

structure Options where
  /-- The document type before the first `html` tag. -/
  doctype : Option String := none
  /-- The text that one level of indentation adds, if the markup is indented. -/
  indentation : Option String := none
  /-- The program keeps track of the line it is at. -/
  debug : Bool := true
  /-- The program has the helpers in front of it. -/
  inlineHelpers : Bool := false
  name : String := "template"
  locals : LocalsMode := .variables
  /-- Sources of files, for errors, in the order of their names. -/
  sources : Option (List (String × String)) := none
  deriving DecidableEq, Repr, Inhabited

/-- What stands before the names of helpers: they are functions, or members of an object. -/
def Options.helperPrefix (options : Options) : String :=
  if options.inlineHelpers then "pug_" else "pug."

end Program
end PugTemplate
