import PugTemplate.Proofs.Node.Readers
/-!
# What the productions read

`Reads` says which nodes can be made of the tokens at the front of a stream, one rule for each kind
of production. It leaves out what is said on the way (the names of attributes, the texts), and keeps
what becomes of tokens: which nodes they end up in, in which order, and inside of what. Every
production obeys it (`reads_ofTokens`), so that a property of trees is one induction
over `Reads`, and no proof about trees opens the productions again.
-/

namespace PugTemplate

/-! ## Kinds of tokens -/

namespace TokenKind

/-- Text, the ends of its lines, and the dot before a block of it. -/
def isText : TokenKind → Bool
  | .text _ => true
  | .textHtml _ => true
  | .newline => true
  | .dot => true
  | _ => false

/-- A token that stands for no node, opens nothing and closes nothing: the words that announce a
file, a comment or a filter, and what belongs to them. -/
def isInert : TokenKind → Bool
  | .doctype _ => true
  | .extends => true
  | .include => true
  | .path _ => true
  | .filter _ => true
  | .comment _ _ => true
  | .yield => true
  | .startAttributes => true
  | .attribute _ _ _ => true
  | .endAttributes => true
  | _ => false

/-- A token that may follow the name of a tag as a part of its head. -/
def isHeadPart : TokenKind → Bool
  | .id _ => true
  | .class _ => true
  | .startAttributes => true
  | .attribute _ _ _ => true
  | .endAttributes => true
  | .spreadAttributes _ => true
  | _ => false

/-- A token that starts the content of a tag on its own line. -/
def startsLine : TokenKind → Bool
  | .text _ => true
  | .interpolatedCode _ _ _ => true
  | .code _ _ _ => true
  | .colon => true
  | _ => false

def branchValue? : TokenKind → Option String
  | .when value => some value
  | .default => some "default"
  | _ => none

/-- The first kind opens what the second one closes. -/
def Encloses (first last : TokenKind) : Prop :=
  ((∃ width, first = .indent width) ∧ last = .outdent) ∨
    (first = .startInterpolation ∧ last = .endInterpolation) ∨
    (first = .startPipelessText ∧ last = .endPipelessText)

end TokenKind

def TagLabel.token : TagLabel → TokenKind
  | .name label => .tag label
  | .expression source => .interpolation source

/-- A stream without the slash or the colon that it may start with. -/
def Unmarked (ts mid : TokenStream) : Prop :=
  mid = ts ∨ ∃ t, ts = t :: mid ∧ (t.kind = .slash ∨ t.kind = .colon)

/-- The code that a part of a block of code stands for. -/
def Token.codeText (t : Token) : String :=
  match t.kind with
  | .text text => text
  | _ => "\n"

/-- The code in the block of text at the front of a stream, and what follows the block. -/
def CodeText (ts : TokenStream) (source : String) (rest : TokenStream) : Prop :=
  (source = "" ∧ rest = ts ∧ ∀ t ∈ ts.head?, t.kind ≠ .startPipelessText) ∨
    ∃ first lines last, ts = first :: lines ++ last :: rest ∧ first.kind = .startPipelessText ∧
      (∀ t ∈ lines, t.kind = .newline ∨ ∃ text, t.kind = .text text) ∧
      last.kind = .endPipelessText ∧ source = String.join (lines.map Token.codeText)

/-! ## Kinds of nodes -/

namespace Node

def isText : Node → Bool
  | .text _ _ _ => true
  | _ => false

/-- A node without content that stands for no construct. -/
def isLeaf : Node → Bool
  | .comment _ _ _ => true
  | .doctype _ _ => true
  | .yieldBlock _ => true
  | .rawInclude _ _ _ => true
  | .extends _ _ => true
  | _ => false

/-- The content of a node that stands for no construct itself. -/
def wrapped? : Node → Option Block
  | .blockComment _ body _ _ => some body
  | .filter _ body _ _ => some body
  | .include _ body _ => some body
  | _ => none

end Node

def SameButText (a b : List Node) : Prop :=
  a.filter (fun node => !node.isText) = b.filter fun node => !node.isText

theorem SameButText.append {a b c d : List Node} (ha : SameButText a b) (hc : SameButText c d) :
    SameButText (a ++ c) (b ++ d) := by
  unfold SameButText at *
  rw [List.filter_append, List.filter_append, ha, hc]

/-- The code of a token, at its place. -/
structure CodeHead.Matches (head : CodeHead) (source : String) (escape buffer : Bool) (t : Token) :
    Prop where
  source : head.source = source
  escape : head.escape = escape
  buffer : head.buffer = buffer
  position : head.location.position = t.position

/-! ## Rules -/

inductive Phrase where
  /-- Nodes after each other. -/
  | nodes (nodes : List Node)
  /-- What follows the name of a tag or of a call, by the nodes in its content. -/
  | content (nodes : List Node)
  /-- The branches of a choice. -/
  | branches (nodes : List Node)
  /-- The branches of a condition after the first one. -/
  | others (branches : List Branch) (otherwise : Option Block)

/-- **The rules of the grammar.** From the tokens `ts`, the phrase can be read up to `rest`. The
first argument tells whether that happens inside of a mixin's definition. -/
inductive Reads : Bool → TokenStream → Phrase → TokenStream → Prop where
  | nil {m ts} : Reads m ts (.nodes []) ts
  | append {m ts mid rest a b} (first : Reads m ts (.nodes a) mid)
      (second : Reads m mid (.nodes b) rest) : Reads m ts (.nodes (a ++ b)) rest
  | skip {m t rest} (ht : t.kind.isText = true) : Reads m (t :: rest) (.nodes []) rest
  | retext {m ts rest a b} (h : Reads m ts (.nodes a) rest) (hab : SameButText a b) :
      Reads m ts (.nodes b) rest
  | group {m ts rest} {body : Block} (h : Reads m ts (.nodes body.nodes) rest) :
      Reads m ts (.nodes [.block body]) rest
  | ungroup {m ts rest} {body : Block} (h : Reads m ts (.nodes [.block body]) rest) :
      Reads m ts (.nodes body.nodes) rest
  | enclosed {m first last ts rest a} (hkinds : first.kind.Encloses last.kind)
      (h : Reads m ts (.nodes a) (last :: rest)) : Reads m (first :: ts) (.nodes a) rest
  | leaf {m front rest node} (hfront : ∀ t ∈ front, t.kind.isInert = true)
      (hnode : node.isLeaf = true) : Reads m (front ++ rest) (.nodes [node]) rest
  | wrap {m front ts rest node body} (hfront : ∀ t ∈ front, t.kind.isInert = true)
      (hnode : node.wrapped? = some body) (h : Reads m ts (.nodes body.nodes) rest) :
      Reads m (front ++ ts) (.nodes [node]) rest
  | mixinBlock {t rest location} (ht : t.kind = .mixinBlock) :
      Reads true (t :: rest) (.nodes [.mixinBlock location]) rest
  | code {m t rest head source escape buffer}
      (ht : t.kind = .code source escape buffer ∨ t.kind = .interpolatedCode source escape buffer)
      (hhead : head.Matches source escape buffer t) :
      Reads m (t :: rest) (.nodes [.code head none]) rest
  | codeBlock {m t ts rest head source escape body} (ht : t.kind = .code source escape false)
      (hhead : head.Matches source escape false t) (hinline : head.inline = false)
      (h : Reads m ts (.nodes body.nodes) rest) :
      Reads m (t :: ts) (.nodes [.code head (some body)]) rest
  | blockCode {m t ts rest head source} (ht : t.kind = .blockCode)
      (hhead : head.Matches source false false t) (h : CodeText ts source rest) :
      Reads m (t :: ts) (.nodes [.code head none]) rest
  | content {m front ts mid rest a} (hfront : ∀ t ∈ front, t.kind.isHeadPart = true)
      (hts : ∀ t ∈ ts.head?, t.kind.isHeadPart = false) (hmark : Unmarked ts mid)
      (h : Reads m mid (.nodes a) rest) : Reads m (front ++ ts) (.content a) rest
  | textContent {m front t ts mid rest a} (hfront : ∀ t ∈ front, t.kind.isHeadPart = true)
      (ht : t.kind = .dot) (hmark : Unmarked ts mid) (h : Reads m mid (.nodes a) rest) :
      Reads m (front ++ t :: ts) (.content a) rest
  /-- Behind a dot, what stands on the line of a tag makes room for the block of text below it. -/
  | lostContent {m front t ts mid after rest lost a}
      (hfront : ∀ t ∈ front, t.kind.isHeadPart = true) (ht : t.kind = .dot)
      (hts : ∃ u ∈ ts.head?, u.kind.startsLine = true) (hmark : Unmarked ts mid)
      (hlost : Reads m mid (.nodes lost) after) (h : Reads m after (.nodes a) rest) :
      Reads m (front ++ t :: ts) (.content a) rest
  | tag {m t ts rest head body} (ht : t.kind = head.label.token)
      (hlocation : head.location.position = t.position)
      (h : Reads m ts (.content body.nodes) rest) : Reads m (t :: ts) (.nodes [.tag head body]) rest
  /-- An id or a class on its own belongs to a `div`. -/
  | bareTag {m t ts rest head body} (ht : (∃ name, t.kind = .id name) ∨ ∃ name, t.kind = .class name)
      (hlabel : head.label = .name "div") (hlocation : head.location.position = t.position)
      (h : Reads m (t :: ts) (.content body.nodes) rest) :
      Reads m (t :: ts) (.nodes [.tag head body]) rest
  | call {m t ts rest name arguments attributes spreads location} {body : Block}
      (ht : t.kind = .call name arguments) (hlocation : location.position = t.position)
      (h : Reads m ts (.content body.nodes) rest) :
      Reads m (t :: ts) (.nodes [.call name arguments
        (if body.nodes.isEmpty then none else some body) attributes spreads location]) rest
  | mixin {m t i o ts rest name parameters body location width} (ht : t.kind = .mixin name parameters)
      (hlocation : location.position = t.position) (hi : i.kind = .indent width)
      (ho : o.kind = .outdent) (h : Reads true ts (.nodes body.nodes) (o :: rest)) :
      Reads m (t :: i :: ts) (.nodes [.mixin name parameters body location]) rest
  | namedBlock {m t ts rest name mode body location} (ht : t.kind = .block name mode)
      (hlocation : location.position = t.position) (h : Reads m ts (.nodes body.nodes) rest) :
      Reads m (t :: ts) (.nodes [.namedBlock (Text.trimString name) mode body location]) rest
  | «while» {m t ts rest test body location} (ht : t.kind = .while test)
      (hlocation : location.position = t.position) (h : Reads m ts (.nodes body.nodes) rest) :
      Reads m (t :: ts) (.nodes [.while test body location]) rest
  | each {m t ts rest item key list body location} (ht : t.kind = .each item key list)
      (hlocation : location.position = t.position) (h : Reads m ts (.nodes body.nodes) rest) :
      Reads m (t :: ts) (.nodes [.each item key list body none location]) rest
  | eachElse {m t u ts mid rest item key list text body otherwise location}
      (ht : t.kind = .each item key list) (hlocation : location.position = t.position)
      (h : Reads m ts (.nodes body.nodes) (u :: mid)) (hu : u.kind = .else text)
      (hother : Reads m mid (.nodes otherwise.nodes) rest) :
      Reads m (t :: ts) (.nodes [.each item key list body (some otherwise) location]) rest
  | conditional {m t ts mid rest test body location others otherwise} (ht : t.kind = .if test)
      (hlocation : location.position = t.position) (h : Reads m ts (.nodes body.nodes) mid)
      (hothers : Reads m mid (.others others otherwise) rest) :
      Reads m (t :: ts) (.nodes [.conditional ⟨test, body, location⟩ others otherwise]) rest
  | case {m t i o ts rest subject body location width} (ht : t.kind = .case subject)
      (hlocation : location.position = t.position) (hi : i.kind = .indent width)
      (ho : o.kind = .outdent) (h : Reads m ts (.branches body.nodes) (o :: rest)) :
      Reads m (t :: i :: ts) (.nodes [.case subject body location]) rest
  | noBranch {m ts} : Reads m ts (.branches []) ts
  | skipBranch {m t ts rest a} (ht : t.kind = .newline ∨ ∃ text buffer, t.kind = .comment text buffer)
      (h : Reads m ts (.branches a) rest) : Reads m (t :: ts) (.branches a) rest
  | fallThrough {m t ts rest value location a} (ht : t.kind = .when value)
      (hlocation : location.position = t.position) (h : Reads m ts (.branches a) rest) :
      Reads m (t :: ts) (.branches (.when value none location :: a)) rest
  | branch {m t ts inside mid rest value body location a} (ht : t.kind.branchValue? = some value)
      (hlocation : location.position = t.position) (hmark : Unmarked ts inside)
      (hbody : Reads m inside (.nodes body.nodes) mid) (h : Reads m mid (.branches a) rest) :
      Reads m (t :: ts) (.branches (.when value (some body) location :: a)) rest
  | noOther {m ts} : Reads m ts (.others [] none) ts
  | skipOther {m t ts rest others otherwise} (ht : t.kind = .newline)
      (h : Reads m ts (.others others otherwise) rest) :
      Reads m (t :: ts) (.others others otherwise) rest
  | elseIf {m t ts mid rest test body location others otherwise} (ht : t.kind = .elseIf test)
      (hlocation : location.position = t.position) (hbody : Reads m ts (.nodes body.nodes) mid)
      (h : Reads m mid (.others others otherwise) rest) :
      Reads m (t :: ts) (.others (⟨test, body, location⟩ :: others) otherwise) rest
  | «else» {m t ts rest text body} (ht : t.kind = .else text) (h : Reads m ts (.nodes body.nodes) rest) :
      Reads m (t :: ts) (.others [] (some body)) rest
  | emptyElse {m t rest text} (ht : t.kind = .else text) : Reads m (t :: rest) (.others [] none) rest

end PugTemplate
