import PugTemplate.Diagnostic.Basic
/-!
# What a command works with

A command runs on a host: something that has files, an input and two outputs.
-/

namespace PugTemplate

/-- Why a file cannot be read or written. -/
inductive FileFault where
  | missing
  /-- A directory has this path. -/
  | directory
  /-- Something on the way is no directory. -/
  | noDirectory
  | notText
  | other (text : String)
  deriving DecidableEq, Repr, Inhabited

def FileFault.message : FileFault → String
  | .missing => "No such file or directory (os error 2)"
  | .directory => "Is a directory (os error 21)"
  | .noDirectory => "Not a directory (os error 20)"
  | .notText => "stream did not contain valid UTF-8"
  | .other text => text

/-- The operations that a command needs. -/
structure Host (m : Type → Type) where
  input : m (Except FileFault String)
  print : String → m Unit
  /-- Adds to the output for messages. -/
  report : String → m Unit
  palette : Diagnostic.Palette
  read : String → m (Except FileFault String)
  write : String → String → m (Except FileFault Unit)
  isFile : String → m Bool
  isDirectory : String → m Bool
  /-- A path and all paths below it. -/
  walk : String → m (List String)
  /-- The time in microseconds. -/
  clock : m Nat

end PugTemplate
