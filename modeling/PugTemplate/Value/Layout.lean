import PugTemplate.Value.Basic
/-!
# Values over several lines
-/

namespace PugTemplate
namespace Value

/-- What each level adds in front of a line. -/
def levelIndent : String := "  "

/-- Parts between brackets, each on a line of its own. -/
def bracketed (opening closing indent : String) (parts : List String) : String :=
  if parts.isEmpty then opening ++ closing
  else opening ++ "\n" ++ String.intercalate ",\n" parts ++ "\n" ++ indent ++ closing

mutual
/-- A value whose lines after the first start with `indent`. -/
def layoutFrom (indent : String) : Value → String
  | .null => "null"
  | .bool b => if b then "true" else "false"
  | .int n => toString n
  | .double x => x.brief
  | .string s => Text.Quoted.quote Text.Quoted.plainEscape s
  | .array items => bracketed "[" "]" indent (itemLines (indent ++ levelIndent) items)
  | .object entries => bracketed "\x7b" "\x7d" indent (entryLines (indent ++ levelIndent) entries)

def itemLines (indent : String) : List Value → List String
  | [] => []
  | v :: rest => (indent ++ v.layoutFrom indent) :: itemLines indent rest

def entryLines (indent : String) : List (String × Value) → List String
  | [] => []
  | (k, v) :: rest =>
    (indent ++ Text.Quoted.quote Text.Quoted.plainEscape k ++ ": " ++ v.layoutFrom indent) ::
      entryLines indent rest
end

/-- A value with one item or entry on a line. -/
def layout (v : Value) : String := v.layoutFrom ""

end Value
end PugTemplate
