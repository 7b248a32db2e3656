import PugTemplate.Node.Basic
/-!
# Trees as data
-/

namespace PugTemplate

/-- The place of a node, as fields. A node without file has none. -/
def Location.fields (l : Location) : List (String × Value) :=
  [("line", .int l.line), ("column", .int l.column)] ++
    (l.file.map fun file => ("filename", Value.string file)).toList

def Attribute.toValue (a : Attribute) : Value :=
  .object ([("name", .string a.name), ("val", a.value.toValue), ("must_escape", .bool a.escape)] ++
    a.location.fields)

def Spread.toValue (s : Spread) : Value :=
  .object (("val", .string s.source) :: s.location.fields)

def FileReference.toValue (f : FileReference) : Value :=
  .object (("path", .string f.path) :: f.location.fields)

def FilterCall.fields (f : FilterCall) : List (String × Value) :=
  [("name", .string f.name), ("attrs", .array (f.attributes.map Attribute.toValue))] ++
    f.location.fields

def attributeFields (attributes : List Attribute) (spreads : List Spread) : List (String × Value) :=
  [("attrs", .array (attributes.map Attribute.toValue)),
    ("attribute_blocks", .array (spreads.map Spread.toValue))]

def optionalText : Option String → Value
  | some text => .string text
  | none => .null

def TagHead.fields (head : TagHead) (body : Value) : List (String × Value) :=
  match head.label with
  | .name name =>
    [("name", .string name), ("self_closing", .bool head.selfClosing), ("block", body)] ++
      attributeFields head.attributes head.spreads ++
      [("is_inline", .bool head.isInline), ("text_only", .bool head.textOnly)] ++
      head.location.fields
  | .expression source =>
    [("expr", .string source), ("self_closing", .bool head.selfClosing), ("block", body)] ++
      attributeFields head.attributes head.spreads ++
      [("text_only", .bool head.textOnly)] ++ head.location.fields

def CodeHead.fields (head : CodeHead) (body : Value) : List (String × Value) :=
  [("val", .string head.source), ("buffer", .bool head.buffer), ("must_escape", .bool head.escape),
    ("is_inline", .bool head.inline), ("block", body), ("debug", .bool head.debug)] ++
    head.location.fields

mutual

/-- The fields of a node, without its type. -/
def Node.fields : Node → List (String × Value)
  | .block body => blockFields body
  | .namedBlock name mode body location =>
    [("name", .string name), ("mode", .string mode.name), ("block", .object (blockFields body))] ++
      location.fields
  | .tag head body => head.fields (.object (blockFields body))
  | .text text html location =>
    [("val", .string text), ("is_html", .bool html)] ++ location.fields
  | .code head body => head.fields (optionalBlock body)
  | .comment text buffer location =>
    [("val", .string text), ("buffer", .bool buffer)] ++ location.fields
  | .blockComment text body buffer location =>
    [("val", .string text), ("block", .object (blockFields body)), ("buffer", .bool buffer)] ++
      location.fields
  | .doctype name location => ("val", .string name) :: location.fields
  | .each item key list body otherwise location =>
    [("obj", .string list), ("val", .string item), ("key", optionalText key),
      ("block", .object (blockFields body)), ("alternate", optionalBlock otherwise)] ++
      location.fields
  | .while test body location =>
    [("test", .string test), ("block", .object (blockFields body))] ++ location.fields
  | .conditional first others otherwise =>
    branchFields first (branchesValue others (lastBranch otherwise))
  | .case subject body location =>
    [("expr", .string subject), ("block", .object (blockFields body))] ++ location.fields
  | .when value body location =>
    [("expr", .string value), ("block", optionalBlock body)] ++ location.fields
  | .mixin name parameters body location =>
    [("name", .string name), ("args", optionalText parameters),
      ("block", .object (blockFields body)), ("call", .bool false)] ++ attributeFields [] [] ++
      location.fields
  | .call name arguments body attributes spreads location =>
    [("name", .string name), ("args", optionalText arguments), ("block", optionalBlock body),
      ("call", .bool true)] ++ attributeFields attributes spreads ++ location.fields
  | .mixinBlock location => location.fields
  | .yieldBlock location => location.fields
  | .filter name body attributes location =>
    [("name", .string name), ("block", .object (blockFields body)),
      ("attrs", .array (attributes.map Attribute.toValue))] ++ location.fields
  | .includeFilter f => f.fields
  | .include file body location =>
    [("file", file.toValue), ("block", .object (blockFields body))] ++ location.fields
  | .rawInclude file filters location =>
    [("file", file.toValue), ("filters", .array (filters.map fun f => .object f.fields))] ++
      location.fields
  | .extends file location => ("file", file.toValue) :: location.fields

def blockFields : BlockOf Node → List (String × Value)
  | ⟨nodes, location⟩ => ("nodes", .array (nodeValues nodes)) :: location.fields

def optionalBlock : Option (BlockOf Node) → Value
  | some body => .object (blockFields body)
  | none => .null

/-- The fields of a branch, given what comes after it. -/
def branchFields : BranchOf Node → Value → List (String × Value)
  | ⟨test, body, location⟩, alternate =>
    [("test", .string test), ("consequent", .object (blockFields body)),
      ("alternate", alternate)] ++ location.fields

/-- The branch that is left over. -/
def lastBranch : Option (BlockOf Node) → Value
  | some body => .object (("type", .string "Block") :: blockFields body)
  | none => .null

/-- The branches after the first one, each inside of the one before. -/
def branchesValue : List (BranchOf Node) → Value → Value
  | [], last => last
  | b :: bs, last =>
    .object (("type", .string "Conditional") :: branchFields b (branchesValue bs last))

def nodeValues : List Node → List Value
  | [] => []
  | n :: ns => .object (("type", .string n.typeName) :: n.fields) :: nodeValues ns

end

def Node.toValue (n : Node) : Value := .object (("type", .string n.typeName) :: n.fields)

def Block.toValue (b : Block) : Value := (Node.block b).toValue

end PugTemplate
