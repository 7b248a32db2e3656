/-!
# Paths of files

A path is text with slashes between the names of directories and, at its end, of a file.
-/

namespace PugTemplate
namespace Path

/-- The names of a path. Empty ones and those of one dot stay where they are. -/
def parts (path : String) : List String :=
  (path.splitOn "/").filter fun name => !(name.isEmpty || name == ".")

/-- Only a directory can have this path. -/
def namesDirectory (path : String) : Bool :=
  match (path.splitOn "/").getLast? with
  | some last => last.isEmpty || last == "."
  | none => true

def join (path name : String) : String :=
  if path.isEmpty || path.endsWith "/" then path ++ name else path ++ "/" ++ name

/-- The last name of a path, if it is one of its own. -/
def fileName? (path : String) : Option String :=
  (parts path).getLast?.filter (· != "..")

/-- Cuts at the last dot, with a nonempty part before it. -/
def cutLastDot? (cs : List Char) : Option (List Char × List Char) :=
  let after := (cs.reverse.takeWhile (· != '.')).reverse
  match cs.reverse.drop after.length with
  | '.' :: front => if front.isEmpty then none else some (front.reverse, after)
  | _ => none

/-- What follows the last dot of a file's name. A dot in front of the name does not count. -/
def extension? (path : String) : Option String := do
  let (_, after) ← cutLastDot? (← fileName? path).toList
  return String.ofList after

def withExtension (path extension : String) : String :=
  match cutLastDot? path.toList with
  | some (front, _) => String.ofList front ++ "." ++ extension
  | none => path ++ "." ++ extension

end Path
end PugTemplate
