import PugTemplate.Markup
import PugTemplate.Token.Basic
/-!
# Trees of a template
-/

namespace PugTemplate

structure Location where
  line : Nat := 0
  column : Nat := 0
  file : Option String := none
  deriving DecidableEq, Repr, Inhabited

def Location.ofPosition (file : Option String) (at_ : Position) : Location :=
  ⟨at_.line, at_.column, file⟩

def Location.position (l : Location) : Position := ⟨l.line, l.column⟩

/-- An attribute of a tag, a mixin call or a filter. -/
structure Attribute where
  name : String
  value : AttributeValue
  /-- The value is escaped when it is written. -/
  escape : Bool
  location : Location
  deriving DecidableEq, Repr, Inhabited

/-- Attributes that an expression gives. -/
structure Spread where
  source : String
  location : Location
  deriving DecidableEq, Repr, Inhabited

structure FileReference where
  path : String
  location : Location
  deriving DecidableEq, Repr, Inhabited

/-- A filter that an included file goes through. -/
structure FilterCall where
  name : String
  attributes : List Attribute
  location : Location
  deriving DecidableEq, Repr, Inhabited

/-- What a tag is called: a name, or the value of an expression. -/
inductive TagLabel where
  | name (name : String)
  | expression (source : String)
  deriving DecidableEq, Repr, Inhabited

/-- A tag without its content. -/
structure TagHead where
  label : TagLabel
  selfClosing : Bool := false
  /-- The content is a block of text. -/
  textOnly : Bool := false
  attributes : List Attribute := []
  spreads : List Spread := []
  location : Location
  deriving DecidableEq, Repr, Inhabited

/-- Code without its block. -/
structure CodeHead where
  source : String
  /-- Its value is written. -/
  buffer : Bool
  /-- Its value is escaped when it is written. -/
  escape : Bool
  /-- It stands inside of text or on the line of a tag. -/
  inline : Bool
  /-- Its line is recorded before it runs. Code that goes on with the statement before it must not
  be cut off from it. -/
  debug : Bool
  location : Location
  deriving DecidableEq, Repr, Inhabited

/-- Nodes under each other. -/
structure BlockOf (α : Type) where
  nodes : List α := []
  location : Location
  deriving DecidableEq, Repr, Inhabited

/-- One branch of a condition. -/
structure BranchOf (α : Type) where
  test : String
  body : BlockOf α
  location : Location
  deriving DecidableEq, Repr, Inhabited

inductive Node where
  | block (body : BlockOf Node)
  | namedBlock (name : String) (mode : BlockMode) (body : BlockOf Node) (location : Location)
  | tag (head : TagHead) (body : BlockOf Node)
  | text (text : String) (html : Bool) (location : Location)
  | code (head : CodeHead) (body : Option (BlockOf Node))
  | comment (text : String) (buffer : Bool) (location : Location)
  | blockComment (text : String) (body : BlockOf Node) (buffer : Bool) (location : Location)
  | doctype (name : String) (location : Location)
  | each (item : String) (key : Option String) (list : String) (body : BlockOf Node)
      (otherwise : Option (BlockOf Node)) (location : Location)
  | while (test : String) (body : BlockOf Node) (location : Location)
  /-- The first branch whose test holds is taken. -/
  | conditional (first : BranchOf Node) (others : List (BranchOf Node))
      (otherwise : Option (BlockOf Node))
  | case (subject : String) (body : BlockOf Node) (location : Location)
  /-- A branch of a choice. The branch that is left over has the value `default`; one without
  content shares the content of the next one. -/
  | when (value : String) (body : Option (BlockOf Node)) (location : Location)
  | mixin (name : String) (parameters : Option String) (body : BlockOf Node) (location : Location)
  | call (name : String) (arguments : Option String) (body : Option (BlockOf Node))
      (attributes : List Attribute) (spreads : List Spread) (location : Location)
  | mixinBlock (location : Location)
  | yieldBlock (location : Location)
  | filter (name : String) (body : BlockOf Node) (attributes : List Attribute) (location : Location)
  | includeFilter (filter : FilterCall)
  | include (file : FileReference) (body : BlockOf Node) (location : Location)
  | rawInclude (file : FileReference) (filters : List FilterCall) (location : Location)
  | extends (file : FileReference) (location : Location)
  deriving Repr, Inhabited

abbrev Block := BlockOf Node

abbrev Branch := BranchOf Node

namespace Node

def typeName : Node → String
  | .block _ => "Block"
  | .namedBlock _ _ _ _ => "NamedBlock"
  | .tag head _ =>
    match head.label with
    | .name _ => "Tag"
    | .expression _ => "InterpolatedTag"
  | .text _ _ _ => "Text"
  | .code _ _ => "Code"
  | .comment _ _ _ => "Comment"
  | .blockComment _ _ _ _ => "BlockComment"
  | .doctype _ _ => "Doctype"
  | .each _ _ _ _ _ _ => "Each"
  | .while _ _ _ => "While"
  | .conditional _ _ _ => "Conditional"
  | .case _ _ _ => "Case"
  | .when _ _ _ => "When"
  | .mixin _ _ _ _ => "Mixin"
  | .call _ _ _ _ _ _ => "Mixin"
  | .mixinBlock _ => "MixinBlock"
  | .yieldBlock _ => "YieldBlock"
  | .filter _ _ _ _ => "Filter"
  | .includeFilter _ => "IncludeFilter"
  | .include _ _ _ => "Include"
  | .rawInclude _ _ _ => "RawInclude"
  | .extends _ _ => "Extends"

def location : Node → Location
  | .block body => body.location
  | .namedBlock _ _ _ location => location
  | .tag head _ => head.location
  | .text _ _ location => location
  | .code head _ => head.location
  | .comment _ _ location => location
  | .blockComment _ _ _ location => location
  | .doctype _ location => location
  | .each _ _ _ _ _ location => location
  | .while _ _ location => location
  | .conditional first _ _ => first.location
  | .case _ _ location => location
  | .when _ _ location => location
  | .mixin _ _ _ location => location
  | .call _ _ _ _ _ location => location
  | .mixinBlock location => location
  | .yieldBlock location => location
  | .filter _ _ _ location => location
  | .includeFilter f => f.location
  | .include _ _ location => location
  | .rawInclude _ _ location => location
  | .extends _ location => location

end Node

/-- A tag that stays on the line of the text around it. -/
def TagHead.isInline (head : TagHead) : Bool :=
  match head.label with
  | .name name => Markup.isInline name
  | .expression _ => false

/-- A node that may stay on the line of the node before it. -/
def Node.isInline : Node → Bool
  | .tag head _ => head.isInline
  | .code head _ => head.inline
  | _ => false

end PugTemplate
