import PugTemplate.Command.Host
import PugTemplate.Command.Path
/-!
# Hosts in memory

A workspace has all that a command works with as data, so that what a command does is a function of
its arguments and of a workspace.
-/

namespace PugTemplate

/-- The files, the input and the outputs of a command. -/
structure Workspace where
  /-- The contents of files. A file is named by the names of a path from the top. -/
  files : List (List String × String) := []
  input : String := ""
  printed : String := ""
  reported : String := ""
  deriving DecidableEq, Repr, Inhabited

namespace Workspace

def file? (w : Workspace) (place : List String) : Option String :=
  (w.files.find? fun f => f.1 == place).map (·.2)

/-- A directory is the top, or has files below it. -/
def isDirectoryAt (w : Workspace) (place : List String) : Bool :=
  place.isEmpty || w.files.any fun f => place.isPrefixOf f.1 && place.length < f.1.length

/-- Goes down from a place, which is reversed. -/
def follow (w : Workspace) : List String → List String → Except FileFault (List String)
  | place, [] => .ok place.reverse
  | place, name :: names =>
    if (w.file? place.reverse).isSome then .error .noDirectory
    else if name == ".." then
      match place with
      | _ :: above => follow w above names
      | [] => .error .missing
    else
      let next := (name :: place).reverse
      if (w.file? next).isSome || w.isDirectoryAt next then follow w (name :: place) names
      else .error .missing

inductive Place where
  | file (place : List String) (content : String)
  | directory (place : List String)
  deriving DecidableEq, Repr, Inhabited

def locate (w : Workspace) (path : String) : Except FileFault Place := do
  if path.isEmpty || path.startsWith "/" then .error .missing
  else
    let place ← w.follow [] (Path.parts path)
    match w.file? place with
    | some content =>
      if Path.namesDirectory path then .error .noDirectory else .ok (.file place content)
    | none => .ok (.directory place)

def read (w : Workspace) (path : String) : Except FileFault String := do
  match ← w.locate path with
  | .file _ content => .ok content
  | .directory _ => .error .directory

def isFile (w : Workspace) (path : String) : Bool :=
  match w.locate path with
  | .ok (.file _ _) => true
  | _ => false

def isDirectory (w : Workspace) (path : String) : Bool :=
  match w.locate path with
  | .ok (.directory _) => true
  | _ => false

def put (w : Workspace) (place : List String) (content : String) : Workspace :=
  if (w.file? place).isSome then
    { w with files := w.files.map fun f => if f.1 == place then (place, content) else f }
  else { w with files := w.files ++ [(place, content)] }

/-- Writes a file into a directory that is there. -/
def write (w : Workspace) (path content : String) : Except FileFault Workspace :=
  match w.locate path with
  | .ok (.file place _) => .ok (w.put place content)
  | .ok (.directory _) => .error .directory
  | .error .missing =>
    match Path.fileName? path with
    | none => .error .missing
    | some name => do
      let place ← w.follow [] (Path.parts path).dropLast
      if (w.file? place).isSome then .error .noDirectory else .ok (w.put (place ++ [name]) content)
  | .error fault => .error fault

/-- The nonempty beginnings of a list, from short to long. -/
def beginnings : List String → List (List String)
  | [] => []
  | name :: names => [name] :: (beginnings names).map (name :: ·)

def walk (w : Workspace) (path : String) : List String :=
  match w.locate path with
  | .ok (.directory place) =>
    let inside := w.files.filterMap fun f => place.isPrefixOf? f.1
    path :: (inside.flatMap beginnings).eraseDups.map fun names => names.foldl Path.join path
  | .ok (.file _ _) => [path]
  | .error _ => []

/-- The host whose state is a workspace. Its messages have no colours, and its clock stands still.
-/
def host : Host (StateM Workspace) where
  input := do return .ok (← get).input
  print text := modify fun w => { w with printed := w.printed ++ text }
  report text := modify fun w => { w with reported := w.reported ++ text }
  palette := .plain
  read path := do return (← get).read path
  write path content := do
    match (← get).write path content with
    | .ok w => set w; pure (.ok ())
    | .error fault => pure (.error fault)
  isFile path := do return (← get).isFile path
  isDirectory path := do return (← get).isDirectory path
  walk path := do return (← get).walk path
  clock := pure 0

end Workspace
end PugTemplate
