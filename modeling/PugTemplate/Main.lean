import PugTemplate.Command
import PugTemplate.Grammar
/-!
# The program

Carries out commands on the files of the system. A directory is known as such, but its content is
not listed.
-/

open PugTemplate

/-- Why the system refused a file. -/
def systemFault : IO.Error → FileFault
  | .noFileOrDirectory _ _ _ => .missing
  | .inappropriateType _ _ _ => .directory
  | e => .other (toString e)

def textOf (bytes : ByteArray) : Except FileFault String :=
  match String.fromUTF8? bytes with
  | some text => .ok text
  | none => .error .notText

def readFileBytes (path : String) : IO (Except FileFault ByteArray) := do
  match ← (IO.FS.readBinFile path).toBaseIO with
  | .ok bytes => pure (.ok bytes)
  | .error e => pure (.error (systemFault e))

def readAll (stream : IO.FS.Stream) : IO ByteArray := do
  let mut bytes := ByteArray.empty
  repeat
    let chunk ← stream.read 65536
    if chunk.isEmpty then break
    bytes := bytes ++ chunk
  return bytes

/-- The files, the input and the outputs of the system. -/
def systemHost (palette : Diagnostic.Palette) : Host IO where
  input := do return textOf (← readAll (← IO.getStdin))
  print text := do (← IO.getStdout).putStr text
  report text := do (← IO.getStderr).putStr text
  palette := palette
  read path := do return (← readFileBytes path).bind textOf
  write path content := do
    match ← (IO.FS.writeFile path content).toBaseIO with
    | .ok () => pure (.ok ())
    | .error e => pure (.error (systemFault e))
  isFile path := do return (← readFileBytes path).isOk
  isDirectory path := do
    match ← readFileBytes path with
    | .error .directory => pure true
    | _ => pure false
  walk path := pure [path]
  clock := do return (← IO.monoNanosNow) / 1000

def main (args : List String) : IO UInt32 := do
  let palette := if ← (← IO.getStderr).isTty then Diagnostic.Palette.terminal else .plain
  let status ← (systemHost palette).run { parser := Grammar.parse } args
  return status.toUInt32
