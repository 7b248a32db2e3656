import PugTemplate.Value.Basic
/-!
# Attributes in markup

How constant values are written as attributes. The helpers that run inside of a template do the same
with the values of that moment.
-/

namespace PugTemplate
namespace Markup

/-- How one character is written inside of markup. -/
def escapeChar (c : Char) : List Char :=
  if c == '"' then "&quot;".toList
  else if c == '&' then "&amp;".toList
  else if c == '<' then "&lt;".toList
  else if c == '>' then "&gt;".toList
  else [c]

/-- A text with its special characters as entities. -/
def escape (text : String) : String := String.ofList (text.toList.flatMap escapeChar)

/-- A character that is written as an entity. -/
def isSpecial (c : Char) : Bool := c == '"' || c == '&' || c == '<' || c == '>'

/-- A value whose text has its special characters as entities; one without them stays as it is. -/
def escapeValue (v : Value) : Value :=
  match v with
  | .string s => .string (escape s)
  | other =>
    let text := other.toText
    if text.toList.any isSpecial then .string (escape text) else other

/-- A key with a text between double quotes. -/
def keyed (key text : String) : String := " " ++ key ++ "=\"" ++ text ++ "\""

/-- A text whose single quotes are entities. -/
def escapeSingleQuotes (text : String) : String :=
  String.ofList (text.toList.flatMap fun c => if c == '\'' then "&#39;".toList else [c])

/-- The attribute of an array or an object. Unescaped, it is put between single quotes, so that its
double quotes can stay. -/
def dataAttribute (key : String) (v : Value) (escaped : Bool) : String :=
  if escaped then keyed key (escape v.json)
  else if v.json.toList.contains '"' then " " ++ key ++ "='" ++ escapeSingleQuotes v.json ++ "'"
  else keyed key v.json

def textAttribute (key text : String) (escaped : Bool) : String :=
  keyed key (if escaped then escape text else text)

/-- The value leaves its attribute out. -/
def isAbsent (key : String) (v : Value) : Bool :=
  match v with
  | .null => true
  | .bool b => !b
  | other => !other.truthy && (key == "class" || key == "style")

/-- One attribute with the space before it. An attribute that is just true is written in short form
if that is allowed. -/
def attributeText (key : String) (v : Value) (escaped terse : Bool) : String :=
  if isAbsent key v then ""
  else
    match v with
    | .bool _ => if terse then " " ++ key else keyed key key
    | .array _ => dataAttribute key v escaped
    | .object _ => dataAttribute key v escaped
    | other => textAttribute key other.toText escaped

def trueKeys (entries : List (String × Value)) : List String :=
  (entries.filter fun e => !e.1.isEmpty && e.2.truthy).map (·.1)

mutual

def classNames : Value → String
  | .array items => String.intercalate " " ((classItems items).filter fun name => !name.isEmpty)
  | .object entries => String.intercalate " " (trueKeys entries)
  | other => if other.truthy then other.toText else ""

def classItems : List Value → List String
  | [] => []
  | v :: vs => classNames v :: classItems vs

end

/-- The class names of items, each escaped as its flag says. -/
def escapedItems : List Value → List Bool → List String
  | [], _ => []
  | v :: vs, flags =>
    let name := classNames v
    (if flags.headD false then escape name else name) :: escapedItems vs flags.tail

/-- The text of a class attribute. The flags tell which items of an array are escaped. -/
def classes (v : Value) (escaping : List Bool) : String :=
  match v with
  | .array items =>
    String.intercalate " " ((escapedItems items escaping).filter fun name => !name.isEmpty)
  | other => classNames other

def declaration (property : String) (v : Value) : String := property ++ ":" ++ v.toText ++ ";"

/-- The text of a style attribute. The items of an array are declared by their positions. -/
def style (v : Value) : String :=
  if !v.truthy then ""
  else
    match v with
    | .object entries => String.join (entries.map fun e => declaration e.1 e.2)
    | .array items => String.join (items.zipIdx.map fun (item, i) => declaration (toString i) item)
    | other =>
      let text := other.toText
      if text.endsWith ";" then text else text ++ ";"

end Markup
end PugTemplate
