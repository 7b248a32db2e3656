import PugTemplate.Node.Basic
/-!
# Walks over trees

A walk enters each node before its children and leaves it after them. The links of a condition are
not entered on their own; their contents are.
-/

namespace PugTemplate

/-- What happens at the nodes of a walk. -/
structure Visitor (σ : Type) where
  /-- At a node, before its children. The children are left out if the answer is `false`. -/
  enter : Node → σ → Bool × σ := fun _ s => (true, s)
  /-- At a node, after its children. -/
  leave : Node → σ → σ := fun _ s => s
  /-- Replaces the text of a text node. -/
  text : String → String := fun text => text

def Node.mapText (f : String → String) : Node → Node
  | .text content html location => .text (f content) html location
  | node => node

mutual

/-- Walks over a node: the node with its new texts, and the state. -/
def Node.walk {σ : Type} (v : Visitor σ) : Node → σ → Node × σ
  | node, s =>
    let (descend, s) := v.enter node s
    let (node, s) :=
      if descend then
        match node with
        | .block body =>
          let (body, s) := walkBlock v body s
          (Node.block body, s)
        | .namedBlock name mode body location =>
          let (body, s) := walkBlock v body s
          (.namedBlock name mode body location, s)
        | .tag head body =>
          let (body, s) := walkBlock v body s
          (.tag head body, s)
        | .code head body =>
          let (body, s) := walkOption v body s
          (.code head body, s)
        | .blockComment content body buffer location =>
          let (body, s) := walkBlock v body s
          (.blockComment content body buffer location, s)
        | .each item key list body otherwise location =>
          let (body, s) := walkBlock v body s
          let (otherwise, s) := walkOption v otherwise s
          (.each item key list body otherwise location, s)
        | .while test body location =>
          let (body, s) := walkBlock v body s
          (.while test body location, s)
        | .conditional first others otherwise =>
          let (first, s) := walkBranch v first s
          let (others, s) := walkBranches v others s
          let (otherwise, s) := walkOption v otherwise s
          (.conditional first others otherwise, s)
        | .case subject body location =>
          let (body, s) := walkBlock v body s
          (.case subject body location, s)
        | .when value body location =>
          let (body, s) := walkOption v body s
          (.when value body location, s)
        | .mixin name parameters body location =>
          let (body, s) := walkBlock v body s
          (.mixin name parameters body location, s)
        | .call name arguments body attributes spreads location =>
          let (body, s) := walkOption v body s
          (.call name arguments body attributes spreads location, s)
        | .filter name body attributes location =>
          let (body, s) := walkBlock v body s
          (.filter name body attributes location, s)
        | .include file body location =>
          let (body, s) := walkBlock v body s
          (.include file body location, s)
        | leaf => (leaf.mapText v.text, s)
      else (node.mapText v.text, s)
    (node, v.leave node s)

def walkBlock {σ : Type} (v : Visitor σ) : BlockOf Node → σ → BlockOf Node × σ
  | ⟨nodes, location⟩, s =>
    let (nodes, s) := walkNodes v nodes s
    (⟨nodes, location⟩, s)

def walkOption {σ : Type} (v : Visitor σ) : Option (BlockOf Node) → σ → Option (BlockOf Node) × σ
  | none, s => (none, s)
  | some body, s =>
    let (body, s) := walkBlock v body s
    (some body, s)

def walkBranch {σ : Type} (v : Visitor σ) : BranchOf Node → σ → BranchOf Node × σ
  | ⟨test, body, location⟩, s =>
    let (body, s) := walkBlock v body s
    (⟨test, body, location⟩, s)

def walkBranches {σ : Type} (v : Visitor σ) : List (BranchOf Node) → σ → List (BranchOf Node) × σ
  | [], s => ([], s)
  | b :: bs, s =>
    let (b, s) := walkBranch v b s
    let (bs, s) := walkBranches v bs s
    (b :: bs, s)

def walkNodes {σ : Type} (v : Visitor σ) : List Node → σ → List Node × σ
  | [], s => ([], s)
  | n :: ns, s =>
    let (n, s) := n.walk v s
    let (ns, s) := walkNodes v ns s
    (n :: ns, s)

end

def Block.walk {σ : Type} (v : Visitor σ) (b : Block) (s : σ) : Block × σ := walkBlock v b s

end PugTemplate
