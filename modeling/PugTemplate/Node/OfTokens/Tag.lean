import PugTemplate.Node.OfTokens.Text
/-!
# Tags and calls of mixins in trees
-/

namespace PugTemplate
namespace TreeSetting

def hookTag (env : TreeSetting) (context : HookContext) (kind : String) (draft : TagDraft) :
    TokenReader (Option TagDraft) :=
  match env.plugins.tag? context kind with
  | some hook => hook env.hookScope draft
  | none => pure none

/-- The attribute that an id or a class stands for. -/
def shorthand (env : TreeSetting) (name value : String) (at_ : Position) : Attribute :=
  { name, value := .expression ("'" ++ value ++ "'"), escape := false,
    location := env.location at_ }

/-- Reads ids, classes and attributes. `names` are the names that may not repeat. -/
def tagAttributes (env : TreeSetting) : Nat → List String → TagDraft → TokenReader TagDraft
  | 0, _, _ => exhausted
  | n + 1, names, draft => do
    let t ← env.peek
    match t.kind with
    | .id name =>
      let _ ← env.advance
      if names.contains "id" then env.fail .duplicateId t.position
      else
        let entry := env.shorthand "id" name t.position
        tagAttributes env n (names ++ ["id"])
          { draft with attributes := draft.attributes ++ [entry] }
    | .class name =>
      let _ ← env.advance
      let entry := env.shorthand "class" name t.position
      tagAttributes env n names { draft with attributes := draft.attributes ++ [entry] }
    | .startAttributes =>
      let (all, attributes) ← env.attributes (some names)
      tagAttributes env n (all.getD names)
        { draft with attributes := draft.attributes ++ attributes }
    | .spreadAttributes source =>
      let _ ← env.advance
      let spread : Spread := { source, location := env.location t.position }
      tagAttributes env n names { draft with spreads := draft.spreads ++ [spread] }
    | _ =>
      match ← env.hookTag .tagAttribute t.name draft with
      | some draft => tagAttributes env n names draft
      | none => pure draft

def addToBody (draft : TagDraft) (nodes : List Node) : TagDraft :=
  { draft with body := { draft.body with nodes := draft.body.nodes ++ nodes } }

/-- Reads what stands on the line of a tag after its attributes. -/
def tagLine (env : TreeSetting) (slashAllowed : Bool) (draft : TagDraft) :
    TokenReader TagDraft := do
  let t ← env.peek
  match t.kind with
  | .text _ => return addToBody draft (spliced (← env.text false))
  | .interpolatedCode _ _ _ => return addToBody draft (spliced (← env.text false))
  | .code source escape buffer =>
    let _ ← env.advance
    pure (addToBody draft [env.lineCode source escape buffer t.position])
  | .colon =>
    let _ ← env.advance
    return { draft with body := asBlock (← env.expression) draft.location }
  | .newline => pure draft
  | .indent _ => pure draft
  | .outdent => pure draft
  | .eos => pure draft
  | .startPipelessText => pure draft
  | .endInterpolation => pure draft
  | _ =>
    if slashAllowed && t.kind == .slash then
      let _ ← env.advance
      pure { draft with selfClosing := true }
    else
      match ← env.hookTag .tag t.name draft with
      | some draft => pure draft
      | none =>
        let next ← env.peek
        env.fail (.unexpectedInTag t.name slashAllowed) next.position

def skipNewlines (env : TreeSetting) : Nat → TokenReader Unit
  | 0 => exhausted
  | n + 1 => do
    match ← env.accept "newline" with
    | some _ => skipNewlines env n
    | none => pure ()

/-- Reads a tag or a call after its name. -/
def tagDraft (env : TreeSetting) (slashAllowed : Bool) (location : Location) :
    TokenReader TagDraft := do
  let draft ← env.tagAttributes (← budget) [] { body := { location }, location }
  let textOnly := (← env.accept "dot").isSome
  let draft := if textOnly then { draft with textOnly := true } else draft
  let draft ← env.tagLine slashAllowed draft
  env.skipNewlines (← budget)
  if textOnly then return { draft with body := ← env.textBlockOrEmpty location }
  match ← env.block? with
  | some body => pure (addToBody draft body.nodes)
  | none => pure draft

def tag (env : TreeSetting) (label : TagLabel) (at_ : Position) : TokenReader Node := do
  let location := env.location at_
  let draft ← env.tagDraft true location
  pure (.tag
    { label, selfClosing := draft.selfClosing, textOnly := draft.textOnly,
      attributes := draft.attributes, spreads := draft.spreads, location } draft.body)

def call (env : TreeSetting) (name : String) (arguments : Option String) (at_ : Position) :
    TokenReader Node := do
  let location := env.location at_
  let draft ← env.tagDraft false location
  let body := if draft.body.nodes.isEmpty then none else some draft.body
  pure (.call name arguments body draft.attributes draft.spreads location)

end TreeSetting
end PugTemplate
