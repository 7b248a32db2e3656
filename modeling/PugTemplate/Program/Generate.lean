import PugTemplate.Program.Emit
/-!
# The program of a tree
-/

namespace PugTemplate
namespace Program

open WriterSetting

/-! ## Parts -/

/-- The statement that notes the line of a node. -/
def debugLine (location : Location) : String :=
  ";pug_debug_line = " ++ toString location.line ++
    (match location.file with
      | some file => ";pug_debug_filename = " ++ Text.Quoted.script file
      | none => "") ++ ";"

def hasDebugLine : Node → Bool
  | .block _ => false
  | .code head _ => head.debug && 0 < head.location.line
  | node => 0 < node.location.line

def emitDebugLine (env : WriterSetting) (node : Node) : Emit Unit :=
  Emit.onlyIf (env.options.debug && hasDebugLine node) (Emit.statement (debugLine node.location))

def isUnusedMixin (use : MixinUse) : Node → Bool
  | .mixin name _ _ _ => !use.keeps name
  | _ => false

/-- A text that holds nothing but white space. -/
def isBlankNode : Node → Bool
  | .text text _ _ => Text.isBlankText text.toList
  | _ => false

def isText : Node → Bool
  | .text _ _ _ => true
  | _ => false

/-- A text that ends its line. -/
def endsLine : Option Node → Bool
  | some (.text text _ _) => text.endsWith "\n"
  | _ => false

/-- The first two nodes are texts. -/
def startsWithTexts : List Node → Bool
  | a :: b :: _ => isText a && isText b
  | _ => false

mutual

/-- All nodes can stay on the line of the tag around them. -/
def canInline : BlockOf Node → Bool
  | ⟨nodes, _⟩ => canInlineNodes nodes

def canInlineNodes : List Node → Bool
  | [] => true
  | .block body :: rest => canInline body && canInlineNodes rest
  | .yieldBlock _ :: rest => canInlineNodes rest
  | .text text _ _ :: rest => !text.toList.contains '\n' && canInlineNodes rest
  | node :: rest => node.isInline && canInlineNodes rest

end

/-! ## Tags -/

def knownName? : TagLabel → Option String
  | .name name => some name
  | .expression _ => none

/-- The name of a tag for a diagnostic. -/
def shownName : TagLabel → String
  | .name name => name
  | .expression source => "#\x7b" ++ source ++ "\x7d"

/-- A tag inside of which white space counts. -/
def keepsSpace (head : TagHead) : Bool :=
  match head.label with
  | .name name => Markup.keepsSpace name
  | .expression _ => false

/-- A tag that is written without end tag. -/
def isClosed (head : TagHead) (s : WriterState) : Bool :=
  head.selfClosing || (!s.xml && (knownName? head.label).any Markup.isVoid)

def emitName (env : WriterSetting) : TagLabel → Emit Unit
  | .name name => Emit.text name
  | .expression source => env.expression source

/-- Emits the document type before the first tag, if that is `html`. -/
def emitFirstTag (head : TagHead) : Emit Unit := do
  let s ← Emit.state
  Emit.onlyIf (!s.tagWritten) do
    Emit.onlyIf (!s.doctypeWritten && head.label == .name "html") writeDoctype
    Emit.change fun s => { s with tagWritten := true }

/-- Emits a start tag up to its last bracket. -/
def emitStartTag (env : WriterSetting) (head : TagHead) : Emit Unit := do
  Emit.onlyIf (keepsSpace head) (Emit.change fun s => { s with keepSpace := true })
  emitFirstTag head
  Emit.onlyIf (!head.isInline) (env.newline 0)
  Emit.text "<"
  emitName env head.label
  env.tagAttributes head.attributes head.spreads

/-- Emits the end of a tag that has no end tag and may have no content. -/
def emitClosed (head : TagHead) (content : List Node) : Emit Unit := do
  let s ← Emit.state
  Emit.text (if s.terse && !head.selfClosing then ">" else "/>")
  if !content.all isBlankNode then
    let location := head.location
    Emit.fail
      { cause := .selfClosingContent (shownName head.label), position := location.position
        file := location.file }

def emitEndTag (env : WriterSetting) (head : TagHead) (body : Block) : Emit Unit := do
  Emit.onlyIf (!head.isInline && !keepsSpace head && !canInline body) (env.newline 0)
  Emit.text "</"
  emitName env head.label
  Emit.text ">"

/-! ## Code -/

def emitValue (env : WriterSetting) (head : CodeHead) : Emit Unit := do
  let source := Text.trimString head.source
  match env.evaluator source with
  | some value =>
    let text := match value with
      | .null => ""
      | value => value.toText
    Emit.text (if head.escape then Markup.escape text else text)
  | none =>
    let value := "null == (pug_interp = " ++ source ++ ") ? \"\" : pug_interp"
    if head.escape then
      let escape ← env.helper .escape
      Emit.write (.expression (escape ++ "(" ++ value ++ ")"))
    else Emit.write (.expression value)

/-! ## Mixins -/

/-- The place where a mixin is kept. -/
def mixinTarget (name : String) : String :=
  if MixinUse.isDynamic name then
    "pug_mixins[" ++ String.ofList ((name.toList.drop 2).dropLast) ++ "]"
  else "pug_mixins[" ++ Text.Quoted.script name ++ "]"

/-- Does something with the indentation of this place added for mixins. -/
def inFrame (env : WriterSetting) (action : Emit Unit) : Emit Unit := do
  let frame := Text.Quoted.script (env.indentationText env.depth)
  Emit.onlyIf env.isPretty (Emit.statement ("pug_indent.push(" ++ frame ++ ");"))
  action
  Emit.onlyIf env.isPretty (Emit.statement "pug_indent.pop();")

def splitCommas : List Char → List (List Char)
  | [] => [[]]
  | ',' :: cs => [] :: splitCommas cs
  | c :: cs =>
    match splitCommas cs with
    | [] => [[c]]
    | part :: parts => (c :: part) :: parts

/-- The parameters of a mixin, and the name of the one that takes the rest of the arguments. -/
def splitParameters (parameters : Option String) : List String × Option String :=
  let text := parameters.getD ""
  let parts := if text.isEmpty then [] else splitCommas text.toList
  match parts.getLast? with
  | some last =>
    match Text.trim last with
    | '.' :: '.' :: '.' :: rest => (parts.dropLast.map String.ofList, some (String.ofList rest))
    | _ => (parts.map String.ofList, none)
  | none => ([], none)

def emitMixinHead (name : String) (parameters : Option String) : Emit Unit := do
  let (names, rest) := splitParameters parameters
  Emit.statement (mixinTarget name ++ " = pug_interp = function(" ++ String.intercalate "," names ++
    ")\x7b")
  Emit.statement
    "var block = (this && this.block), attributes = (this && this.attributes) || \x7b\x7d;"
  match rest with
  | none => pure ()
  | some rest =>
    Emit.statement ("var " ++ rest ++ " = [];")
    Emit.statement ("for (pug_interp = " ++ toString names.length ++
      "; pug_interp < arguments.length; pug_interp++) \x7b")
    Emit.statement ("  " ++ rest ++ ".push(arguments[pug_interp]);")
    Emit.statement "\x7d"

/-- Emits the attributes and the arguments at the end of a call. -/
def emitCallEnd (env : WriterSetting) (arguments : String) (attributes : List Attribute)
    (spreads : List Spread) : Emit Unit := do
  if !spreads.isEmpty then
    Emit.statement ("attributes: " ++ (← env.spreadAttributes attributes spreads))
  else if !attributes.isEmpty then
    Emit.statement ("attributes: " ++ (← env.attributes .object attributes))
  Emit.statement (if arguments.isEmpty then "\x7d);" else "\x7d, " ++ arguments ++ ");")

/-! ## Loops -/

/-- The start of a loop over a list. -/
def listLoop (list : String) : String :=
  "// iterate " ++ list ++ "\n;(function()\x7b\n  var $$obj = " ++ list ++
    ";\n  if ('number' == typeof $$obj.length) \x7b"

/-- The start of the loop over the items of an array. -/
def itemLoop (index item : String) : String :=
  "      for (var " ++ index ++ " = 0, $$l = $$obj.length; " ++ index ++ " < $$l; " ++ index ++
    "++) \x7b\n        var " ++ item ++ " = $$obj[" ++ index ++ "];"

/-- The start of the loop over the keys of an object. -/
def keyLoop (index item : String) : String :=
  "  \x7d else \x7b\n    var $$l = 0;\n    for (var " ++ index ++ " in $$obj) \x7b\n      $$l++;\n      var " ++
    item ++ " = $$obj[" ++ index ++ "];"

def loopIndex (key : Option String) : Emit String := do
  let s ← Emit.state
  Emit.change fun s => { s with loops := s.loops + 1 }
  pure (key.getD ("pug_index" ++ toString s.loops))

/-! ## Diagnostics -/

/-- A node that should have been replaced before. -/
def unsupported (node : Node) (help : String) : Diagnostic :=
  let location := node.location
  { cause := .unsupportedNode (location.file.getD "Pug") location.line node.typeName
    position := location.position, file := location.file, help := some help }

def refuseFilter (node : Node) : Emit Unit :=
  Emit.fail (unsupported node "Apply filters to the AST before generating code.")

def refuseFile (node : Node) : Emit Unit :=
  Emit.fail (unsupported node
    "Resolve includes and template inheritance with a linker before generating code.")

/-! ## Trees -/

def emitStatements (codes : List String) : Emit Unit := fun s => .ok ((), codes.map .statement, s)

mutual

def emitNode (env : WriterSetting) : Node → Emit Unit
  | .block body => emitBlock env body
  | .namedBlock _ _ body _ => emitBlock env body
  | .tag head body => do
    let env := { env with depth := env.depth + 1 }
    emitStartTag env head
    let s ← Emit.state
    if isClosed head s then emitClosed head body.nodes
    else
      Emit.text ">"
      emitBlock env body
      emitEndTag env head body
    Emit.onlyIf (keepsSpace head) (Emit.change fun s => { s with keepSpace := false })
  | .text text _ _ => Emit.text text
  | .code head body =>
    if head.buffer then do
      emitValue env head
      emitOption env [] [] body
    else do
      Emit.statement head.source
      emitOption env ["\x7b"] ["\x7d"] body
  | .comment text buffer _ =>
    Emit.onlyIf buffer do
      env.newline 1
      Emit.text ("<!--" ++ text ++ "-->")
  | .blockComment text body buffer _ =>
    Emit.onlyIf buffer do
      env.newline 1
      Emit.text ("<!--" ++ text)
      emitBlock env body
      env.newline 1
      Emit.text "-->"
  | .doctype name _ => doctype name
  | .each item key list body otherwise _ => do
    let index ← loopIndex key
    Emit.statement (listLoop list)
    Emit.onlyIf otherwise.isSome (Emit.statement "    if ($$obj.length) \x7b")
    Emit.statement (itemLoop index item)
    emitBlock env body
    Emit.statement "      \x7d"
    emitOption env ["    \x7d else \x7b"] ["    \x7d"] otherwise
    Emit.statement (keyLoop index item)
    emitBlock env body
    Emit.statement "    \x7d"
    emitOption env ["    if ($$l === 0) \x7b"] ["    \x7d"] otherwise
    Emit.statement "  \x7d\n\x7d).call(this);\n"
  | .while test body _ => do
    Emit.statement ("while (" ++ test ++ ") \x7b")
    emitBlock env body
    Emit.statement "\x7d"
  | .conditional first others otherwise => do
    emitBranch env first
    emitBranches env others
    emitOption env ["else \x7b"] ["\x7d"] otherwise
  | .case subject body _ => do
    Emit.write (.choice subject)
    emitBlock env body
    Emit.statement "\x7d"
  | .when value body _ => do
    Emit.write (.branch value)
    emitOption env [] ["  break;"] body
  | .mixin name parameters body _ => do
    emitMixinHead name parameters
    emitBlock { env with mixinDepth := env.mixinDepth + 1 } body
    Emit.statement "\x7d;"
  | .call name arguments body attributes spreads _ =>
    let arguments := arguments.getD ""
    let plain := attributes.isEmpty && spreads.isEmpty
    inFrame env (
      if body.isNone && plain then Emit.statement (mixinTarget name ++ "(" ++ arguments ++ ");")
      else do
        Emit.statement (mixinTarget name ++ ".call(\x7b")
        emitOption { env with depth := 0, mixinDepth := env.mixinDepth + 1 } ["block: function()\x7b"]
          [if plain then "\x7d" else "\x7d,"] body
        emitCallEnd env arguments attributes spreads)
  | .mixinBlock _ => inFrame env (Emit.statement "block && block();")
  | .yieldBlock _ => pure ()
  | .filter name body attributes location => refuseFilter (.filter name body attributes location)
  | .includeFilter f => refuseFilter (.includeFilter f)
  | .include file body location => refuseFile (.include file body location)
  | .rawInclude file filters location => refuseFile (.rawInclude file filters location)
  | .extends file location => refuseFile (.extends file location)

/-- Emits a block. Texts on several lines are indented. -/
def emitBlock (env : WriterSetting) : BlockOf Node → Emit Unit
  | ⟨nodes, _⟩ => do
    let s ← Emit.state
    let indented := env.isPretty && !s.keepSpace
    Emit.onlyIf (indented && startsWithTexts nodes) (env.indent 1 true)
    emitNodes env indented none nodes

/-- Emits a block that may be missing, between statements that are missing with it. -/
def emitOption (env : WriterSetting) (before after : List String) :
    Option (BlockOf Node) → Emit Unit
  | none => pure ()
  | some body => do
    emitStatements before
    emitBlock env body
    emitStatements after

/-- Emits nodes in turn; `before` is the one before them. Mixins that are never called are left
out. -/
def emitNodes (env : WriterSetting) (indented : Bool) : Option Node → List Node → Emit Unit
  | _, [] => pure ()
  | before, node :: rest => do
    Emit.onlyIf (indented && isText node && endsLine before) (env.indent 1 false)
    if isUnusedMixin env.mixins node then pure ()
    else
      emitDebugLine env node
      emitNode env node
    emitNodes env indented (some node) rest

def emitBranch (env : WriterSetting) : BranchOf Node → Emit Unit
  | ⟨test, body, _⟩ => do
    Emit.statement ("if (" ++ test ++ ") \x7b")
    emitBlock env body
    Emit.statement "\x7d"

def emitBranches (env : WriterSetting) : List (BranchOf Node) → Emit Unit
  | [] => pure ()
  | b :: bs => do
    Emit.statement "else"
    emitBranch env b
    emitBranches env bs

end

end Program
end PugTemplate
