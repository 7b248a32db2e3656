import PugTemplate.Diagnostic.Basic
import PugTemplate.Value.Basic
/-!
# Tokens of a template
-/

namespace PugTemplate

/-- The value of an attribute: the source of an expression, or none for an attribute that is just
named. -/
inductive AttributeValue where
  | expression (source : String)
  | bare
  deriving DecidableEq, Repr, Inhabited

namespace AttributeValue

def source : AttributeValue → String
  | .expression source => source
  | .bare => "true"

def toValue : AttributeValue → Value
  | .expression source => .string source
  | .bare => .bool true

end AttributeValue

/-- What the content of a named block does to the block of the same name that it meets. -/
inductive BlockMode where
  | replace
  | prepend
  | append
  deriving DecidableEq, Repr, Inhabited

def BlockMode.name : BlockMode → String
  | .replace => "replace"
  | .prepend => "prepend"
  | .append => "append"

inductive TokenKind where
  | indent (width : Nat)
  | outdent
  | newline
  | eos
  | tag (name : String)
  | id (name : String)
  | class (name : String)
  /-- A tag whose name is an expression. -/
  | interpolation (source : String)
  | startAttributes
  | attribute (name : String) (value : AttributeValue) (escape : Bool)
  | endAttributes
  | spreadAttributes (source : String)
  | dot
  | slash
  | colon
  | text (text : String)
  | textHtml (text : String)
  | interpolatedCode (source : String) (escape : Bool) (buffer : Bool)
  | startPipelessText
  | endPipelessText
  | startInterpolation
  | endInterpolation
  | comment (text : String) (buffer : Bool)
  | doctype (name : String)
  | code (source : String) (escape : Bool) (buffer : Bool)
  | blockCode
  | if (test : String)
  | elseIf (test : String)
  | else (text : String)
  | case (subject : String)
  | when (value : String)
  | default
  | each (item : String) (key : Option String) (list : String)
  | while (test : String)
  | mixin (name : String) (parameters : Option String)
  | call (name : String) (arguments : Option String)
  | mixinBlock
  | yield
  | extends
  | include
  | path (path : String)
  | block (name : String) (mode : BlockMode)
  | filter (name : String)
  deriving DecidableEq, Repr, Inhabited

namespace TokenKind

def name : TokenKind → String
  | .indent _ => "indent"
  | .outdent => "outdent"
  | .newline => "newline"
  | .eos => "eos"
  | .tag _ => "tag"
  | .id _ => "id"
  | .class _ => "class"
  | .interpolation _ => "interpolation"
  | .startAttributes => "start-attributes"
  | .attribute _ _ _ => "attribute"
  | .endAttributes => "end-attributes"
  | .spreadAttributes _ => "&attributes"
  | .dot => "dot"
  | .slash => "slash"
  | .colon => ":"
  | .text _ => "text"
  | .textHtml _ => "text-html"
  | .interpolatedCode _ _ _ => "interpolated-code"
  | .startPipelessText => "start-pipeless-text"
  | .endPipelessText => "end-pipeless-text"
  | .startInterpolation => "start-pug-interpolation"
  | .endInterpolation => "end-pug-interpolation"
  | .comment _ _ => "comment"
  | .doctype _ => "doctype"
  | .code _ _ _ => "code"
  | .blockCode => "blockcode"
  | .if _ => "if"
  | .elseIf _ => "else-if"
  | .else _ => "else"
  | .case _ => "case"
  | .when _ => "when"
  | .default => "default"
  | .each _ _ _ => "each"
  | .while _ => "while"
  | .mixin _ _ => "mixin"
  | .call _ _ => "call"
  | .mixinBlock => "mixin-block"
  | .yield => "yield"
  | .extends => "extends"
  | .include => "include"
  | .path _ => "path"
  | .block _ _ => "block"
  | .filter _ => "filter"

/-- The text that a token carries, if it does. -/
def text? : TokenKind → Option String
  | .tag s => some s
  | .id s => some s
  | .class s => some s
  | .interpolation s => some s
  | .spreadAttributes s => some s
  | .text s => some s
  | .textHtml s => some s
  | .interpolatedCode s _ _ => some s
  | .comment s _ => some s
  | .doctype s => some s
  | .code s _ _ => some s
  | .if s => some s
  | .elseIf s => some s
  | .else s => some s
  | .case s => some s
  | .when s => some s
  | .each s _ _ => some s
  | .while s => some s
  | .mixin s _ => some s
  | .call s _ => some s
  | .path s => some s
  | .block s _ => some s
  | .filter s => some s
  | _ => none

def optionValue : Option String → Value
  | some s => .string s
  | none => .null

/-- What a token carries besides its text, as data. -/
def extraFields : TokenKind → List (String × Value)
  | .attribute _ value escape => [("val", value.toValue), ("must_escape", .bool escape)]
  | .interpolatedCode _ escape buffer => [("must_escape", .bool escape), ("buffer", .bool buffer)]
  | .comment _ buffer => [("buffer", .bool buffer)]
  | .code _ escape buffer => [("must_escape", .bool escape), ("buffer", .bool buffer)]
  | .each _ key list => [("key", optionValue key), ("code", .string list)]
  | .mixin _ parameters => [("args", optionValue parameters)]
  | .call _ arguments => [("args", optionValue arguments)]
  | .block _ mode => [("mode", .string mode.name)]
  | _ => []

def fields : TokenKind → List (String × Value)
  | .indent width => [("val", .int width)]
  | .attribute name value escape =>
    ("name", .string name) :: extraFields (.attribute name value escape)
  | kind => (kind.text?.map fun s => ("val", Value.string s)).toList ++ kind.extraFields

end TokenKind

/-- A token with the place where it starts. -/
structure Token where
  kind : TokenKind
  position : Position
  deriving DecidableEq, Repr, Inhabited

namespace Token

def name (t : Token) : String := t.kind.name

def text? (t : Token) : Option String := t.kind.text?

def toValue (t : Token) : Value :=
  .object (("type", .string t.name) :: t.kind.fields ++
    [("line", .int t.position.line), ("column", .int t.position.column)])

end Token
end PugTemplate
