import PugTemplate.Node.Basic
/-!
# Trees without their locations

Two texts may have the same tree but for the places of its nodes. Here all places of a tree are
replaced by one, so that such trees become equal.
-/

namespace PugTemplate

/-! ## Parts without nodes -/

def Attribute.unlocated (a : Attribute) : Attribute := { a with location := {} }

def Spread.unlocated (s : Spread) : Spread := { s with location := {} }

def FileReference.unlocated (f : FileReference) : FileReference := { f with location := {} }

/-- The filter without the places of itself and its attributes. -/
def FilterCall.unlocated (f : FilterCall) : FilterCall :=
  { f with attributes := f.attributes.map Attribute.unlocated, location := {} }

/-- The tag without the places of itself and its attributes. -/
def TagHead.unlocated (head : TagHead) : TagHead :=
  { head with
    attributes := head.attributes.map Attribute.unlocated
    spreads := head.spreads.map Spread.unlocated
    location := {} }

def CodeHead.unlocated (head : CodeHead) : CodeHead := { head with location := {} }

/-! ## Trees -/

mutual

def Node.unlocated : Node → Node
  | .block body => .block (unlocatedBlock body)
  | .namedBlock name mode body _ => .namedBlock name mode (unlocatedBlock body) {}
  | .tag head body => .tag head.unlocated (unlocatedBlock body)
  | .text text html _ => .text text html {}
  | .code head body => .code head.unlocated (unlocatedOption body)
  | .comment text buffer _ => .comment text buffer {}
  | .blockComment text body buffer _ => .blockComment text (unlocatedBlock body) buffer {}
  | .doctype name _ => .doctype name {}
  | .each item key list body otherwise _ =>
    .each item key list (unlocatedBlock body) (unlocatedOption otherwise) {}
  | .while test body _ => .while test (unlocatedBlock body) {}
  | .conditional first others otherwise =>
    .conditional (unlocatedBranch first) (unlocatedBranches others) (unlocatedOption otherwise)
  | .case subject body _ => .case subject (unlocatedBlock body) {}
  | .when value body _ => .when value (unlocatedOption body) {}
  | .mixin name parameters body _ => .mixin name parameters (unlocatedBlock body) {}
  | .call name arguments body attributes spreads _ =>
    .call name arguments (unlocatedOption body) (attributes.map Attribute.unlocated)
      (spreads.map Spread.unlocated) {}
  | .mixinBlock _ => .mixinBlock {}
  | .yieldBlock _ => .yieldBlock {}
  | .filter name body attributes _ =>
    .filter name (unlocatedBlock body) (attributes.map Attribute.unlocated) {}
  | .includeFilter f => .includeFilter f.unlocated
  | .include file body _ => .include file.unlocated (unlocatedBlock body) {}
  | .rawInclude file filters _ => .rawInclude file.unlocated (filters.map FilterCall.unlocated) {}
  | .extends file _ => .extends file.unlocated {}

def unlocatedBlock : BlockOf Node → BlockOf Node
  | ⟨nodes, _⟩ => ⟨unlocatedNodes nodes, {}⟩

/-- The block without the places in it, if there is one. -/
def unlocatedOption : Option (BlockOf Node) → Option (BlockOf Node)
  | none => none
  | some body => some (unlocatedBlock body)

def unlocatedBranch : BranchOf Node → BranchOf Node
  | ⟨test, body, _⟩ => ⟨test, unlocatedBlock body, {}⟩

def unlocatedBranches : List (BranchOf Node) → List (BranchOf Node)
  | [] => []
  | b :: bs => unlocatedBranch b :: unlocatedBranches bs

def unlocatedNodes : List Node → List Node
  | [] => []
  | n :: ns => n.unlocated :: unlocatedNodes ns

end

def Block.unlocated (b : Block) : Block := unlocatedBlock b

theorem unlocatedNodes_eq (nodes : List Node) :
    unlocatedNodes nodes = nodes.map Node.unlocated := by
  induction nodes with
  | nil => rfl
  | cons node nodes ih => rw [unlocatedNodes, ih, List.map_cons]

theorem unlocatedBlock_eq (b : Block) :
    unlocatedBlock b = { nodes := b.nodes.map Node.unlocated, location := {} } := by
  rw [← unlocatedNodes_eq]
  obtain ⟨nodes, location⟩ := b
  rfl

end PugTemplate
