import PugTemplate.Proofs.Node.MixinUse
import PugTemplate.Proofs.Program.Parts
/-!
# Nodes and the statements that show them

The program of a tree leaves out the definitions of mixins that are never called. Its writes are
compared with the nodes that it comes to: the definitions and the calls of mixins, and the code that
is a statement of its own. The only nodes without their statement are definitions that are left out.
-/

namespace PugTemplate

open List
namespace Program

open Emit WriterSetting

/-! ## Nodes and their statements -/

/-- The statement by which a node shows: the start of a mixin's definition, the start of a call, or
code that is a statement of its own. -/
def ownCode? : Node → Option String
  | .mixin name parameters _ _ =>
    some (mixinTarget name ++ " = pug_interp = function(" ++
      String.intercalate "," (splitParameters parameters).1 ++ ")\x7b")
  | .call name arguments body attributes spreads _ =>
    some (if body.isNone && (attributes.isEmpty && spreads.isEmpty)
      then mixinTarget name ++ "(" ++ arguments.getD "" ++ ");"
      else mixinTarget name ++ ".call(\x7b")
  | .code head _ => if head.buffer then none else some head.source
  | _ => none

mutual

/-- The nodes with statements that the program of a node comes to. The body of a loop over a list is
written twice, and the body of a mixin that is left out is not written. -/
def reachedNode (use : MixinUse) : Node → List Node
  | .block body => reachedBlock use body
  | .namedBlock _ _ body _ => reachedBlock use body
  | .tag _ body => reachedBlock use body
  | .code head body =>
    (if head.buffer then [] else [.code head body]) ++ reachedOption use body
  | .blockComment _ body buffer _ => if buffer then reachedBlock use body else []
  | .each _ _ _ body otherwise _ =>
    let once := reachedBlock use body ++ reachedOption use otherwise
    once ++ once
  | .while _ body _ => reachedBlock use body
  | .conditional first others otherwise =>
    reachedBranch use first ++ (reachedBranches use others ++ reachedOption use otherwise)
  | .case _ body _ => reachedBlock use body
  | .when _ body _ => reachedOption use body
  | .mixin name parameters body location =>
    .mixin name parameters body location :: if use.keeps name then reachedBlock use body else []
  | .call name arguments body attributes spreads location =>
    .call name arguments body attributes spreads location :: reachedOption use body
  | _ => []

/-- The nodes that the program of a block comes to. -/
def reachedBlock (use : MixinUse) : BlockOf Node → List Node
  | ⟨nodes, _⟩ => reachedNodes use nodes

/-- The nodes that the program of a block comes to, if there is one. -/
def reachedOption (use : MixinUse) : Option (BlockOf Node) → List Node
  | none => []
  | some body => reachedBlock use body

/-- The nodes that the program of nodes comes to. -/
def reachedNodes (use : MixinUse) : List Node → List Node
  | [] => []
  | node :: rest => reachedNode use node ++ reachedNodes use rest

/-- The nodes that the program of a branch comes to. -/
def reachedBranch (use : MixinUse) : BranchOf Node → List Node
  | ⟨_, body, _⟩ => reachedBlock use body

/-- The nodes that the program of branches comes to. -/
def reachedBranches (use : MixinUse) : List (BranchOf Node) → List Node
  | [] => []
  | b :: bs => reachedBranch use b ++ reachedBranches use bs

end

/-! ## Writes that show nodes -/

/-- A write that defines or calls a mixin, or looks as if it did. -/
def Write.isMixinStatement : Write → Bool
  | .statement code => isMixinCode code
  | _ => false

/-- The writes show the nodes: each node has its statement among them, in the same order, unless it
defines a mixin that is left out; no other write defines or calls a mixin. -/
inductive Shown (use : MixinUse) : List Node → List Write → Prop where
  | nil : Shown use [] []
  | other {nodes ws} (w : Write) (hw : w.isMixinStatement = false) (h : Shown use nodes ws) :
      Shown use nodes (w :: ws)
  | node {nodes ws code} (node : Node) (hcode : ownCode? node = some code)
      (hkept : isUnusedMixin use node = false) (h : Shown use nodes ws) :
      Shown use (node :: nodes) (.statement code :: ws)
  | leftOut {nodes ws} (node : Node) (hunused : isUnusedMixin use node = true)
      (h : Shown use nodes ws) : Shown use (node :: nodes) ws

namespace Shown

variable {use : MixinUse} {a b : List Node} {ws us : List Write}

theorem append (ha : Shown use a ws) (hb : Shown use b us) : Shown use (a ++ b) (ws ++ us) := by
  induction ha with
  | nil => exact hb
  | other w hw _ ih => exact .other w hw ih
  | node n hc hk _ ih => exact .node n hc hk ih
  | leftOut n hu _ ih => exact .leftOut n hu ih

theorem of_others (h : ∀ w ∈ ws, w.isMixinStatement = false) : Shown use [] ws := by
  induction ws with
  | nil => exact .nil
  | cons w ws ih =>
    exact .other w (h w mem_cons_self) (ih fun v hv => h v (mem_cons_of_mem _ hv))

end Shown

/-! ## Reached nodes are nodes of the tree -/

section Within

variable {use : MixinUse} {n node child : Node}

theorem sizeOf_lt_of_mem_children (h : child ∈ node.children) : sizeOf child < sizeOf node := by
  have hb {body : Block} (h : child ∈ body.nodes) : sizeOf child < sizeOf body :=
    Nat.lt_trans (sizeOf_lt_of_mem h) (by cases body; simp; omega)
  have ho {body : Option Block} (h : child ∈ nodesOf body) : sizeOf child < sizeOf body := by
    cases body with
    | none => simp [nodesOf] at h
    | some body => exact Nat.lt_trans (hb h) (by simp)
  have hbr {branch : Branch} (h : child ∈ branch.body.nodes) : sizeOf child < sizeOf branch :=
    Nat.lt_trans (hb h) (by cases branch; simp; omega)
  cases node with
  | conditional first others otherwise =>
    have hbs {branch : Branch} (hm : branch ∈ others) := sizeOf_lt_of_mem hm
    simp [Node.children] at h ⊢
    grind
  | _ =>
    simp [Node.children] at h ⊢
    try grind

theorem reachedNodes_eq (nodes : List Node) :
    reachedNodes use nodes = nodes.flatMap (reachedNode use) := by
  induction nodes with
  | nil => rfl
  | cons node rest ih => rw [reachedNodes, ih, flatMap_cons]

theorem reachedBlock_eq (body : Block) :
    reachedBlock use body = body.nodes.flatMap (reachedNode use) := by
  cases body
  exact reachedNodes_eq _

theorem reachedOption_eq (body : Option Block) :
    reachedOption use body = (nodesOf body).flatMap (reachedNode use) := by
  cases body with
  | none => rfl
  | some body => exact reachedBlock_eq body

theorem reachedBranch_eq (branch : Branch) :
    reachedBranch use branch = branch.body.nodes.flatMap (reachedNode use) := by
  cases branch
  exact reachedBlock_eq _

theorem reachedBranches_eq (branches : List Branch) : reachedBranches use branches =
    (branches.flatMap fun b => b.body.nodes).flatMap (reachedNode use) := by
  induction branches with
  | nil => rfl
  | cons b bs ih => rw [reachedBranches, ih, reachedBranch_eq, flatMap_cons, flatMap_append]

/-- What is reached in a node is the node, or is reached in one of its children. -/
theorem mem_reachedNode (h : n ∈ reachedNode use node) :
    n = node ∨ ∃ child ∈ node.children, n ∈ reachedNode use child := by
  cases node
  all_goals
    simp only [reachedNode, reachedBlock_eq, reachedOption_eq, reachedBranch_eq,
      reachedBranches_eq] at h
    grind [Node.children]

theorem within_of_mem_reachedNode (node : Node) (h : n ∈ reachedNode use node) : Within node n := by
  rcases mem_reachedNode h with rfl | ⟨child, hc, hn⟩
  · exact .self _
  · exact .child hc (within_of_mem_reachedNode child hn)
termination_by sizeOf node
decreasing_by exact sizeOf_lt_of_mem_children hc

end Within

end Program
end PugTemplate
