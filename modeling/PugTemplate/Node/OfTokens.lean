import PugTemplate.Node.OfTokens.Tag
/-!
# The tree of a token list
-/

namespace PugTemplate
namespace TreeSetting

/-! ## Blocks -/

/-- Reads nodes up to a token, which stays. -/
def nodesUntil (env : TreeSetting) (stop : TokenKind) : Nat → List Node → TokenReader (List Node)
  | 0, _ => exhausted
  | n + 1, nodes => do
    let t ← env.peek
    if t.kind == stop then pure nodes
    else
      match t.kind with
      | .newline =>
        let _ ← env.advance
        nodesUntil env stop n nodes
      | .textHtml _ =>
        let more ← env.textHtml
        nodesUntil env stop n (nodes ++ more)
      | _ =>
        let node ← env.expression
        nodesUntil env stop n (nodes ++ spliced node)

/-- Reads an indented block. -/
def blockStep (env : TreeSetting) : TokenReader Block := do
  let t ← env.expect "indent"
  let nodes ← env.nodesUntil .outdent (← budget) []
  let _ ← env.expect "outdent"
  pure { nodes, location := env.location t.position }

/-- Reads an expression after a colon, or an indented block. -/
def blockExpansion (env : TreeSetting) : TokenReader Block := do
  match ← env.accept ":" with
  | some t => return asBlock (← env.expression) (env.location t.position)
  | none => env.block

/-! ## Control flow -/

def codeBlock (env : TreeSetting) (source : String) (escape buffer : Bool) (at_ : Position) :
    TokenReader Node := do
  let head : CodeHead :=
    { source, buffer, escape, inline := false,
      debug := (Pattern.afterWord? "else" (source.toList.dropWhile (· == ' '))).isNone,
      location := env.location at_ }
  let t ← env.peek
  match t.kind with
  | .indent _ =>
    if buffer then env.fail .blockInBufferedCode t.position
    else return .code head (some (← env.block))
  | _ => pure (.code head none)

/-- Reads the branches of a choice, up to the end of its block. -/
def caseBranches (env : TreeSetting) : Nat → List Node → TokenReader (List Node)
  | 0, _ => exhausted
  | n + 1, nodes => do
    let t ← env.peek
    match t.kind with
    | .outdent => pure nodes
    | .comment _ _ =>
      let _ ← env.advance
      caseBranches env n nodes
    | .newline =>
      let _ ← env.advance
      caseBranches env n nodes
    | .when value =>
      let _ ← env.advance
      let next ← env.peek
      let body ←
        if next.kind == .newline || next.kind == .outdent then pure none
        else some <$> env.blockExpansion
      caseBranches env n (nodes ++ [.when value body (env.location t.position)])
    | .default =>
      let _ ← env.advance
      let body ← env.blockExpansion
      caseBranches env n (nodes ++ [.when "default" (some body) (env.location t.position)])
    | _ =>
      match ← env.hookNodes .case t.name with
      | some more => caseBranches env n (nodes ++ more)
      | none =>
        let next ← env.peek
        env.fail (.unexpectedInCase t.name) next.position

def case (env : TreeSetting) (subject : String) (at_ : Position) : TokenReader Node := do
  let _ ← env.expect "indent"
  let nodes ← env.caseBranches (← budget) []
  let _ ← env.expect "outdent"
  let location := env.location ⟨at_.line + 1, at_.column⟩
  pure (.case subject { nodes, location } (env.location at_))

def branch (env : TreeSetting) (test : String) (at_ : Position) : TokenReader Branch := do
  let location := env.location at_
  return { test, body := ← env.blockOrEmpty location, location }

def otherBranches (env : TreeSetting) :
    Nat → List Branch → TokenReader (List Branch × Option Block)
  | 0, _ => exhausted
  | n + 1, branches => do
    let t ← env.peek
    match t.kind with
    | .newline =>
      let _ ← env.advance
      otherBranches env n branches
    | .elseIf test =>
      let _ ← env.advance
      let next ← env.branch test t.position
      otherBranches env n (branches ++ [next])
    | .else _ =>
      let _ ← env.advance
      return (branches, ← env.block?)
    | _ => pure (branches, none)

def conditional (env : TreeSetting) (test : String) (at_ : Position) : TokenReader Node := do
  let first ← env.branch test at_
  let (others, otherwise) ← env.otherBranches (← budget) []
  pure (.conditional first others otherwise)

def each (env : TreeSetting) (item : String) (key : Option String) (list : String) (at_ : Position) :
    TokenReader Node := do
  let body ← env.block
  let otherwise ←
    match ← env.accept "else" with
    | some _ => some <$> env.block
    | none => pure none
  pure (.each item key list body otherwise (env.location at_))

/-! ## Other files -/

def fileReference (env : TreeSetting) : TokenReader FileReference := do
  let t ← env.expect "path"
  pure { path := Text.trimString (t.text?.getD ""), location := env.location t.position }

def includeFilters (env : TreeSetting) : Nat → List FilterCall → TokenReader (List FilterCall)
  | 0, _ => exhausted
  | n + 1, filters => do
    let t ← env.peek
    match t.kind with
    | .filter name =>
      let _ ← env.advance
      let attributes ← env.looseAttributes
      includeFilters env n (filters ++ [{ name, attributes, location := env.location t.position }])
    | _ => pure filters

def isTemplatePath (path : String) : Bool := path.endsWith ".jade" || path.endsWith ".pug"

/-- Reads what is included. A template without filters may have a block; other files have none. -/
def includeFile (env : TreeSetting) (at_ : Position) : TokenReader Node := do
  let location := env.location at_
  let filters ← env.includeFilters (← budget) []
  let file ← env.fileReference
  if isTemplatePath file.path && filters.isEmpty then
    return .include file (← env.blockOrEmpty location) location
  let t ← env.peek
  match t.kind with
  | .indent _ => env.fail .rawIncludeBlock t.position
  | _ => pure (.rawInclude file filters location)

def filter (env : TreeSetting) (name : String) (at_ : Position) : TokenReader Node := do
  let location := env.location at_
  let attributes ← env.looseAttributes
  let t ← env.peek
  let body ←
    match t.kind with
    | .text text =>
      let _ ← env.advance
      pure { nodes := [env.textNode text t.position], location := env.location t.position }
    | .filter _ => do pure { nodes := [← env.expression], location }
    | _ => env.textBlockOrEmpty location
  pure (.filter name body attributes location)

/-! ## Mixins and named blocks -/

def mixin (env : TreeSetting) (name : String) (parameters : Option String) (at_ : Position) :
    TokenReader Node := do
  match (← env.peek).kind with
  | .indent _ =>
    let body ← { env with inMixin := true }.block
    pure (.mixin name parameters body (env.location at_))
  | _ => env.fail (.mixinWithoutBody name) at_

/-- Reads the place where a mixin puts the content of its call. -/
def mixinBlock (env : TreeSetting) (at_ : Position) : TokenReader Node :=
  if env.inMixin then pure (.mixinBlock (env.location at_)) else env.fail .blockOutsideMixin at_

def comment (env : TreeSetting) (text : String) (buffer : Bool) (at_ : Position) :
    TokenReader Node := do
  let location := env.location at_
  match ← env.textBlock? with
  | some body => pure (.blockComment text body buffer location)
  | none => pure (.comment text buffer location)

/-! ## Expressions -/

/-- Reads an expression whose first token a hook may know. -/
def hookExpression (env : TreeSetting) (t : Token) : TokenReader Node :=
  match env.plugins.expression? t.name with
  | some hook => hook env.hookScope
  | none => env.fail (.unknownToken t.name) t.position

/-- Reads one expression, by its first token. An id or a class on its own belongs to a `div`. -/
def step (env : TreeSetting) : TokenReader Node := do
  let t ← env.peek
  let at_ := t.position
  let location := env.location at_
  match t.kind with
  | .tag name => do let _ ← env.advance; env.tag (.name name) at_
  | .interpolation source => do let _ ← env.advance; env.tag (.expression source) at_
  | .id _ => env.tag (.name "div") at_
  | .class _ => env.tag (.name "div") at_
  | .mixin name parameters => do let _ ← env.advance; env.mixin name parameters at_
  | .call name arguments => do let _ ← env.advance; env.call name arguments at_
  | .mixinBlock => do let _ ← env.advance; env.mixinBlock at_
  | .block name mode => do
    let _ ← env.advance
    return .namedBlock (Text.trimString name) mode (← env.blockOrEmpty location) location
  | .case subject => do let _ ← env.advance; env.case subject at_
  | .extends => do let _ ← env.advance; return .extends (← env.fileReference) location
  | .include => do let _ ← env.advance; env.includeFile at_
  | .doctype name => do let _ ← env.advance; return .doctype name location
  | .filter name => do let _ ← env.advance; env.filter name at_
  | .comment text buffer => do let _ ← env.advance; env.comment text buffer at_
  | .text _ => env.text true
  | .interpolatedCode _ _ _ => env.text true
  | .startInterpolation => env.text true
  | .textHtml _ => do return .block { nodes := ← env.textHtml, location }
  | .dot => do let _ ← env.advance; return .block (← env.textBlockOrEmpty location)
  | .each item key list => do let _ ← env.advance; env.each item key list at_
  | .code source escape buffer => do let _ ← env.advance; env.codeBlock source escape buffer at_
  | .blockCode => do let _ ← env.advance; env.blockCode at_
  | .if test => do let _ ← env.advance; env.conditional test at_
  | .while test => do
    let _ ← env.advance
    return .while test (← env.blockOrEmpty location) location
  | .yield => do let _ ← env.advance; return .yieldBlock location
  | _ => env.hookExpression t

/-! ## Levels -/

/-- The readers that have a number of levels below them. -/
def readers (file : Option String) (plugins : Plugins) : Nat → TreeReaders
  | 0 => { expression := fun _ => exhausted, block := fun _ => exhausted }
  | n + 1 =>
    let env (inMixin : Bool) : TreeSetting :=
      { file, plugins, inMixin, lower := readers file plugins n }
    { expression := fun inMixin => (env inMixin).step
      block := fun inMixin => (env inMixin).blockStep }

end TreeSetting

/-- Reads the tree of a token list, up to the token that ends it. -/
def Block.read (file : Option String) (plugins : Plugins) (tokens : TokenStream) :
    Except Halt (Block × TokenStream) :=
  let lower := TreeSetting.readers file plugins (tokens.length + 1)
  let env : TreeSetting := { file, plugins, lower }
  (do
    let nodes ← env.nodesUntil .eos (← TreeSetting.budget) []
    pure { nodes, location := { file } } : TokenReader Block).run tokens

/-- The tree of a token list. Hooks that never come to an end are refused. -/
def Block.ofTokens (file : Option String) (plugins : Plugins) (tokens : TokenStream) :
    Except Diagnostic Block :=
  match Block.read file plugins tokens with
  | .ok (root, _) => .ok root
  | .error (.refused d) => .error d
  | .error .exhausted => .error (.unlocated .endOfStream file)

end PugTemplate
