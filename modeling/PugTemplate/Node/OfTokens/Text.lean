import PugTemplate.Node.OfTokens.Basic
/-!
# Text in trees
-/

namespace PugTemplate
namespace TreeSetting

/-- Reads the tag of an interpolation and its end. -/
def interpolatedTag (env : TreeSetting) : TokenReader Node := do
  let node ← env.expression
  let _ ← env.expect "end-pug-interpolation"
  pure node

def hookNodes (env : TreeSetting) (context : HookContext) (kind : String) :
    TokenReader (Option (List Node)) :=
  match env.plugins.nodes? context kind with
  | some hook => hook env.hookScope
  | none => pure none

/-! ## Runs of text -/

def textNodes (env : TreeSetting) (multiline : Bool) : Nat → List Node → TokenReader (List Node)
  | 0, _ => exhausted
  | n + 1, nodes => do
    let t ← env.peek
    match t.kind with
    | .text text =>
      let _ ← env.advance
      textNodes env multiline n (nodes ++ [env.textNode text t.position])
    | .interpolatedCode source escape buffer =>
      let _ ← env.advance
      textNodes env multiline n (nodes ++ [env.inlineCode source escape buffer t.position])
    | .newline =>
      if multiline then
        let _ ← env.advance
        match (← env.peek).kind with
        | .text _ => textNodes env multiline n (nodes ++ [env.lineBreak t.position])
        | .interpolatedCode _ _ _ =>
          textNodes env multiline n (nodes ++ [env.lineBreak t.position])
        | _ => textNodes env multiline n nodes
      else pure nodes
    | .startInterpolation =>
      let _ ← env.advance
      let node ← env.interpolatedTag
      textNodes env multiline n (nodes ++ [node])
    | _ =>
      match ← env.hookNodes .text t.name with
      | some more => textNodes env multiline n (nodes ++ more)
      | none => pure nodes

/-- Reads a run of text. A run of one node is that node. -/
def text (env : TreeSetting) (multiline : Bool) : TokenReader Node := do
  let t ← env.peek
  match ← env.textNodes multiline (← budget) [] with
  | [node] => pure node
  | nodes => pure (.block { nodes, location := env.location t.position })

/-! ## Markup -/

/-- Markup that may go on with the next line: the nodes before it, and the text so far. -/
structure HtmlRun where
  nodes : List Node := []
  /-- The last text, if the next line belongs to it. -/
  current : Option (String × Location) := none

namespace HtmlRun

def close (run : HtmlRun) : List Node :=
  match run.current with
  | some (text, location) => run.nodes ++ [.text text true location]
  | none => run.nodes

def addLine (run : HtmlRun) (line : String) (location : Location) : HtmlRun :=
  match run.current with
  | some (text, start) => { run with current := some (text ++ "\n" ++ line, start) }
  | none => { run with current := some (line, location) }

/-- Adds a node that is no markup. -/
def addNode (run : HtmlRun) (node : Node) : HtmlRun := { nodes := run.close ++ [node] }

/-- Adds a node of a block below markup. -/
def add (run : HtmlRun) : Node → HtmlRun
  | .text text true location => run.addLine text location
  | node => run.addNode node

end HtmlRun

/-- Reads inline code, which has no block. -/
def lineCode (env : TreeSetting) (source : String) (escape buffer : Bool) (at_ : Position) :
    Node :=
  .code
    { source, buffer, escape, inline := true,
      debug := (Pattern.afterWord? "else" (source.toList.dropWhile (· == ' '))).isNone,
      location := env.location at_ } none

/-- Reads lines of markup, with the blocks and the code between them. -/
def htmlRun (env : TreeSetting) : Nat → HtmlRun → TokenReader HtmlRun
  | 0, _ => exhausted
  | n + 1, run => do
    let t ← env.peek
    match t.kind with
    | .textHtml line =>
      let _ ← env.advance
      htmlRun env n (run.addLine line (env.location t.position))
    | .indent _ =>
      let body ← env.block
      htmlRun env n (body.nodes.foldl HtmlRun.add run)
    | .code source escape buffer =>
      let _ ← env.advance
      htmlRun env n (run.addNode (env.lineCode source escape buffer t.position))
    | .newline =>
      let _ ← env.advance
      htmlRun env n run
    | _ => pure run

/-- Reads markup that is passed on as it stands. Lines of it that follow each other are one text. -/
def textHtml (env : TreeSetting) : TokenReader (List Node) := do
  pure (← env.htmlRun (← budget) {}).close

/-! ## Blocks of text -/

/-- Reads the nodes of a block of text, and the end of the block. -/
def textBlockNodes (env : TreeSetting) : Nat → List Node → TokenReader (List Node)
  | 0, _ => exhausted
  | n + 1, nodes => do
    let t ← env.peek
    match t.kind with
    | .endPipelessText =>
      let _ ← env.advance
      pure nodes
    | .text text =>
      let _ ← env.advance
      textBlockNodes env n (nodes ++ [env.textNode text t.position])
    | .newline =>
      let _ ← env.advance
      textBlockNodes env n (nodes ++ [env.lineBreak t.position])
    | .startInterpolation =>
      let _ ← env.advance
      let node ← env.interpolatedTag
      textBlockNodes env n (nodes ++ [node])
    | .interpolatedCode source escape buffer =>
      let _ ← env.advance
      textBlockNodes env n (nodes ++ [env.inlineCode source escape buffer t.position])
    | _ =>
      match ← env.hookNodes .textBlock t.name with
      | some more => textBlockNodes env n (nodes ++ more)
      | none => env.fail (.unexpectedTokenType t.name) t.position

def textBlock? (env : TreeSetting) : TokenReader (Option Block) := do
  match ← env.accept "start-pipeless-text" with
  | none => pure none
  | some t =>
    let nodes ← env.textBlockNodes (← budget) []
    pure (some { nodes, location := env.location t.position })

def textBlockOrEmpty (env : TreeSetting) (location : Location) : TokenReader Block := do
  pure ((← env.textBlock?).getD { location })

/-! ## Blocks of code -/

/-- Reads the lines of a block of code, and the end of the block. -/
def codeLines (env : TreeSetting) : Nat → String → TokenReader String
  | 0, _ => exhausted
  | n + 1, source => do
    let t ← env.advance
    match t.kind with
    | .endPipelessText => pure source
    | .text text => codeLines env n (source ++ text)
    | .newline => codeLines env n (source ++ "\n")
    | _ =>
      match env.plugins.blockCode? t.name with
      | none => env.fail (.unexpectedTokenType t.name) t.position
      | some hook =>
        match ← hook env.hookScope t with
        | some more => codeLines env n (source ++ more)
        | none => env.fail (.unexpectedTokenType t.name) t.position

def blockCode (env : TreeSetting) (at_ : Position) : TokenReader Node := do
  let source ←
    match ← env.accept "start-pipeless-text" with
    | some _ => env.codeLines (← budget) ""
    | none => pure ""
  let location := env.location at_
  pure (.code
    { source, buffer := false, escape := false, inline := false, debug := true, location } none)

end TreeSetting
end PugTemplate
