import PugTemplate.Compile
import PugTemplate.Config.Reader
/-!
# Option files

Options of a compilation as they stand in a data file: an object with a key for each option that
differs from its default, or an array of the first options in their order. Unknown keys are skipped.
-/

namespace PugTemplate

/-- An option that a file can set. -/
inductive OptionKey where
  | file
  | doctype
  | indentation
  | debug
  | inlineHelpers
  | name
  | locals
  | sources
  deriving DecidableEq, Repr, Inhabited

namespace OptionKey

def all : List OptionKey :=
  [.file, .doctype, .indentation, .debug, .inlineHelpers, .name, .locals, .sources]

def key : OptionKey → String
  | .file => "filename"
  | .doctype => "doctype"
  | .indentation => "pretty"
  | .debug => "compile_debug"
  | .inlineHelpers => "inline_runtime_functions"
  | .name => "template_name"
  | .locals => "locals"
  | .sources => "include_sources"

def ofKey? (key : String) : Option OptionKey := all.find? fun o => o.key == key

end OptionKey

namespace Program

def LocalsMode.word : LocalsMode → String
  | .variables => "with"
  | .selfObject => "self"
  | .bare => "bare"

def LocalsMode.ofWord? (word : String) : Option LocalsMode :=
  [LocalsMode.variables, .selfObject, .bare].find? fun mode => mode.word == word

end Program

namespace FileReader

/-- Fails behind the bracket that ends the whole, if it is next. -/
def failBehind {α : Type} (close : Char) (text : String) : FileReader α := do
  let next ← skipSpace
  if next == some close then skip
  else if close == ']' && next == some ',' then
    skip
    let _ ← skipSpace
  fail text

/-- The indentation that a value asks for: two spaces, none, or its own text. -/
def levelText (close : Char) : FileReader (Option String) := do
  match ← value with
  | .bool true => pure (some "  ")
  | .bool false => pure none
  | .string s => pure (if s.isEmpty then none else some s)
  | _ => failBehind close "data did not match any variant of untagged enum Pretty"

/-- Takes the word for a mode after its first quote. -/
def modeWord : FileReader Program.LocalsMode := do
  let word ← string
  match Program.LocalsMode.ofWord? word with
  | some mode => pure mode
  | none =>
    fail ("unknown variant `" ++ word ++ "`, expected one of `with`, `self`, `bare`")

/-- Takes a mode: its word, or an object with the word as the key of null. -/
def localsMode : FileReader Program.LocalsMode := do
  match ← skipSpace with
  | none => failAhead "EOF while parsing a value"
  | some '"' => skip; modeWord
  | some '{' =>
    skip
    match ← skipSpace with
    | none => failAhead "EOF while parsing a value"
    | some '"' => skip
    | some _ => unexpected "variant identifier"
    let mode ← modeWord
    colon
    match ← skipSpace with
    | none => failAhead "EOF while parsing a value"
    | some 'n' => skip; word "ull".toList
    | some _ => unexpected "unit"
    match ← skipSpace with
    | some '}' => skip; pure mode
    | some _ => fail "expected value"
    | none => fail "EOF while parsing an object"
  | some _ => failAhead "expected value"

/-- The entries in the order of their keys; the last entry of a key counts. -/
def sorted (entries : List (String × String)) : List (String × String) :=
  let last := entries.foldl (fun acc e => acc.filter (fun old => old.1 != e.1) ++ [e]) []
  last.mergeSort fun a b => a.1 < b.1 || a.1 == b.1

def sourceTable : FileReader (List (String × String)) := do
  match ← skipSpace with
  | none => failAhead "EOF while parsing a value"
  | some '{' => skip; return sorted (← entries false expectString (← budget) [])
  | some _ => unexpected "a map"

end FileReader

open FileReader

/-- Takes the value of an option, inside of something that `close` ends. -/
def OptionKey.read (close : Char) (o : CompileOptions) :
    OptionKey → FileReader CompileOptions
  | .file => do return { o with file := ← optional expectString }
  | .doctype => do return { o with program.doctype := ← optional expectString }
  | .indentation => do return { o with program.indentation := ← levelText close }
  | .debug => do return { o with program.debug := ← expectBool }
  | .inlineHelpers => do return { o with program.inlineHelpers := ← expectBool }
  | .name => do return { o with program.name := ← expectString }
  | .locals => do return { o with program.locals := ← localsMode }
  | .sources => do return { o with program.sources := ← optional sourceTable }

namespace CompileOptions

/-- Takes the entries of an object, and the brace after them. Each option is set at most once. -/
def readEntries : Nat → Bool → List OptionKey → CompileOptions → FileReader CompileOptions
  | 0, _, _, _ => failAhead "EOF while parsing an object"
  | n + 1, first, seen, o => do
    if ← nextKey false first then
      skip
      let key ← string
      match OptionKey.ofKey? key with
      | none =>
        colon
        skipValue
        readEntries n false seen o
      | some option =>
        if seen.contains option then failBehind '}' ("duplicate field `" ++ key ++ "`")
        else
          colon
          readEntries n false (option :: seen) (← option.read '}' o)
    else
      skip
      pure o

/-- Takes the items of an array, which are the first options. -/
def readItems : Bool → List OptionKey → CompileOptions → FileReader CompileOptions
  | _, [], o => pure o
  | first, option :: options, o => do
    if ← nextItem false first then readItems false options (← option.read ']' o) else pure o

def endItems : FileReader Unit := do
  match ← skipSpace with
  | some ']' => skip
  | some ',' =>
    skip
    if (← skipSpace) == some ']' then failAhead "trailing comma"
    else failAhead "trailing characters"
  | some _ => failAhead "trailing characters"
  | none => failAhead "EOF while parsing a list"

/-- Takes all options, and nothing may follow them. -/
def reader : FileReader CompileOptions := do
  let o ← match ← skipSpace with
    | none => failAhead "EOF while parsing a value"
    | some '{' => do
      skip
      readEntries (← budget) true [] {}
    | some '[' => do
      skip
      let o ← readItems true OptionKey.all {}
      endItems
      pure o
    | some _ => unexpected "struct CompileOptions"
  if (← skipSpace).isSome then failAhead "trailing characters"
  pure o

def read (text : String) : Except ReadFault CompileOptions :=
  (reader.run { rest := text.toList }).map (·.1)

end CompileOptions
end PugTemplate
