import PugTemplate.Plugin
/-!
# Reading trees from tokens

Productions are written over the readers of a lower level, and every production takes a token before
it goes down a level. So one level more than there are tokens is enough: without hooks, no reader is
ever `exhausted`.
-/

namespace PugTemplate

/-- Readers of one level, inside of a mixin's definition or not. -/
structure TreeReaders where
  expression : Bool → TokenReader Node
  block : Bool → TokenReader Block

/-- What stays the same while tokens are read. -/
structure TreeSetting where
  file : Option String := none
  plugins : Plugins := {}
  inMixin : Bool := false
  lower : TreeReaders

namespace TreeSetting

/-! ## Diagnostics -/

def diagnostic (env : TreeSetting) (cause : Cause) (at_ : Position) : Diagnostic :=
  { cause, position := at_, file := env.file }

def location (env : TreeSetting) (at_ : Position) : Location := .ofPosition env.file at_

def fail {α : Type} (env : TreeSetting) (cause : Cause) (at_ : Position) : TokenReader α :=
  throw (.refused (env.diagnostic cause at_))

/-- Refuses a stream that has come to its end. -/
def endOfStream {α : Type} (env : TreeSetting) : TokenReader α :=
  throw (.refused (.unlocated .endOfStream env.file))

/-- Gives up after the last step. -/
def exhausted {α : Type} : TokenReader α := throw .exhausted

/-! ## Single tokens -/

/-- The next token, which stays. -/
def peek (env : TreeSetting) : TokenReader Token := do
  match TokenStream.peek? (← get) with
  | some t => pure t
  | none => env.endOfStream

def advance (env : TreeSetting) : TokenReader Token := do
  match TokenStream.advance? (← get) with
  | some (t, rest) => set rest; pure t
  | none => env.endOfStream

/-- Takes the next token, which must be of a kind. -/
def expect (env : TreeSetting) (kind : String) : TokenReader Token := do
  let t ← env.peek
  if t.name == kind then env.advance
  else env.fail (.expectedToken kind t.name) t.position

/-- Takes the next token if it is of a kind. -/
def accept (env : TreeSetting) (kind : String) : TokenReader (Option Token) := do
  let t ← env.peek
  if t.name == kind then some <$> env.advance else pure none

/-- How many steps a loop over the remaining tokens can take. -/
def budget : TokenReader Nat := do pure ((← get).length + 1)

/-! ## Lower levels -/

def expression (env : TreeSetting) : TokenReader Node := env.lower.expression env.inMixin

def hookScope (env : TreeSetting) : HookScope := ⟨env.file, env.expression⟩

def block (env : TreeSetting) : TokenReader Block := env.lower.block env.inMixin

def block? (env : TreeSetting) : TokenReader (Option Block) := do
  if (← env.peek).kind matches .indent _ then some <$> env.block else pure none

/-- Reads an indented block; without one, the content is empty. -/
def blockOrEmpty (env : TreeSetting) (location : Location) : TokenReader Block := do
  pure ((← env.block?).getD { location })

/-! ## Small nodes -/

/-- The nodes that an expression adds to the block around it. -/
def spliced : Node → List Node
  | .block body => body.nodes
  | node => [node]

def asBlock (node : Node) (location : Location) : Block :=
  match node with
  | .block body => body
  | node => { nodes := [node], location }

def textNode (env : TreeSetting) (text : String) (at_ : Position) : Node :=
  .text text false (env.location at_)

/-- The end of a line inside of text. -/
def lineBreak (env : TreeSetting) (at_ : Position) : Node := env.textNode "\n" at_

def inlineCode (env : TreeSetting) (source : String) (escape buffer : Bool) (at_ : Position) :
    Node :=
  .code { source, buffer, escape, inline := true, debug := true, location := env.location at_ } none

/-! ## Attributes -/

/-- Reads attributes up to a token of another kind. Names are recorded, if `names` does so, and then
may not repeat; only classes may. -/
def attributeRun (env : TreeSetting) :
    Nat → Option (List String) → List Attribute →
      TokenReader (Option (List String) × List Attribute)
  | 0, _, _ => exhausted
  | n + 1, names, attributes => do
    let t ← env.peek
    match t.kind with
    | .attribute name value escape =>
      let _ ← env.advance
      let entry : Attribute := { name, value, escape, location := env.location t.position }
      if name == "class" then attributeRun env n names (attributes ++ [entry])
      else if (names.getD []).contains name then env.fail (.duplicateAttribute name) t.position
      else attributeRun env n (names.map (· ++ [name])) (attributes ++ [entry])
    | _ => pure (names, attributes)

def attributes (env : TreeSetting) (names : Option (List String)) :
    TokenReader (Option (List String) × List Attribute) := do
  let _ ← env.expect "start-attributes"
  let result ← env.attributeRun (← budget) names []
  let _ ← env.expect "end-attributes"
  pure result

/-- Reads a list of attributes, if there is one, in which names may repeat. -/
def looseAttributes (env : TreeSetting) : TokenReader (List Attribute) := do
  if (← env.peek).kind == .startAttributes then
    let (_, attributes) ← env.attributes none
    pure attributes
  else pure []

end TreeSetting
end PugTemplate
