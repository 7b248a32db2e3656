import PugTemplate.Node.MixinUse
import PugTemplate.Proofs.Node.Shape
/-!
# The mixins that a tree calls

The walk that notes calls goes through the whole tree: into the definitions of mixins, called or
not, into comments, loops, choices and all branches of conditions. A mixin is kept exactly if the
tree has a call of its name anywhere, or a call whose name is computed.
-/

namespace PugTemplate

/-- A call that may reach the mixin of a name: a call of that name, or one whose name is
computed. -/
def Node.mayCall (name : String) : Node → Bool
  | .call callee _ _ _ _ _ => MixinUse.isDynamic callee || callee == name
  | _ => false

/-! ## Nodes below a node -/

/-- The second node is the first one, or stands below it. -/
inductive Within : Node → Node → Prop where
  | self (node : Node) : Within node node
  | child {node child below : Node} (h : child ∈ node.children) (hbelow : Within child below) :
      Within node below

variable {node top : Node} {root : Block}

theorem Within.snoc {parent : Node} (h : Within top parent) (hn : node ∈ parent.children) :
    Within top node := by
  induction h with
  | self => exact .child hn (.self node)
  | child hc _ ih => exact .child hc (ih hn)

theorem Occurs.within {above : List Node} (ho : Occurs root above top) (h : Within top node) :
    ∃ above, Occurs root above node := by
  induction h generalizing above with
  | self => exact ⟨above, ho⟩
  | child hc _ ih => exact ih (.child ho hc)

theorem occurs_iff_within :
    (∃ above, Occurs root above node) ↔ ∃ top ∈ root.nodes, Within top node := by
  constructor
  · rintro ⟨above, ho⟩
    induction ho with
    | top h => exact ⟨_, h, .self _⟩
    | child _ h ih =>
      obtain ⟨top, ht, hw⟩ := ih
      exact ⟨top, ht, hw.snoc h⟩
  · rintro ⟨top, ht, hw⟩
    exact Occurs.within (.top ht) hw

/-- A call at or below some of the nodes may reach the mixin of a name. -/
def MayCall (name : String) (nodes : List Node) : Prop :=
  ∃ top ∈ nodes, ∃ node, Within top node ∧ node.mayCall name = true

namespace MayCall

variable {name : String} {a b : List Node} {node : Node}

theorem nil_iff : MayCall name [] ↔ False := by simp [MayCall]

theorem append_iff : MayCall name (a ++ b) ↔ MayCall name a ∨ MayCall name b := by
  simp only [MayCall, List.mem_append, or_and_right, exists_or]

theorem cons_iff : MayCall name (node :: a) ↔ MayCall name [node] ∨ MayCall name a :=
  append_iff (a := [node])

theorem singleton_iff : MayCall name [node] ↔ node.mayCall name ∨ MayCall name node.children := by
  constructor
  · rintro ⟨top, ht, below, hw, hc⟩
    obtain rfl := List.mem_singleton.1 ht
    cases hw with
    | self => exact .inl hc
    | child hch hb => exact .inr ⟨_, hch, below, hb, hc⟩
  · rintro (hc | ⟨child, hch, below, hb, hc⟩)
    · exact ⟨node, List.mem_singleton_self _, node, .self _, hc⟩
    · exact ⟨node, List.mem_singleton_self _, below, .child hch hb, hc⟩

end MayCall

/-! ## The walk -/

namespace MixinUse

theorem keeps_add (use : MixinUse) (callee name : String) :
    (use.add callee).keeps name = (use.keeps name || callee == name) := by
  unfold add
  split
  · next hk =>
    by_cases h : callee = name
    · subst h
      simp only [keeps, hk, Bool.or_true, Bool.true_or]
    · simp [h]
  · by_cases h : callee = name
    · simp [keeps, h]
    · have h' : ¬ name = callee := fun e => h e.symm
      simp [keeps, h, h']

theorem keeps_call (use : MixinUse) (callee name : String) :
    (if isDynamic callee then { use with dynamic := true } else use.add callee).keeps name =
      (use.keeps name || (isDynamic callee || callee == name)) := by
  cases hd : isDynamic callee with
  | true => simp [keeps]
  | false => simp [keeps_add]

end MixinUse

open MixinUse

section Walk

variable (name : String)

mutual

theorem keeps_walk (node : Node) (use : MixinUse) : (node.walk visitor use).2.keeps name ↔
      use.keeps name ∨ MayCall name [node] := by
  rw [MayCall.singleton_iff]
  cases node with
  | block body | namedBlock _ _ body _ | tag _ body | blockComment _ body _ _ | «while» _ body _
  | case _ body _ | mixin _ _ body _ | filter _ body _ _ | «include» _ body _ =>
    simpa [Node.walk, visitor, Node.mayCall, Node.children] using keeps_walkBlock body use
  | code _ body | «when» _ body _ =>
    simpa [Node.walk, visitor, Node.mayCall, Node.children] using keeps_walkOption body use
  | each item key list body otherwise location =>
    have hb := keeps_walkBlock body use
    have ho := keeps_walkOption otherwise (walkBlock visitor body use).2
    rw [hb, or_assoc, ← MayCall.append_iff] at ho
    simpa [Node.walk, visitor, Node.mayCall, Node.children] using ho
  | conditional first others otherwise =>
    have hf := keeps_walkBranch first use
    have hot := keeps_walkBranches others (walkBranch visitor first use).2
    have ho := keeps_walkOption otherwise
      (walkBranches visitor others (walkBranch visitor first use).2).2
    rw [hot, hf, or_assoc, or_assoc, ← or_assoc (b := MayCall name (others.flatMap _)),
      ← MayCall.append_iff, ← MayCall.append_iff] at ho
    simpa [Node.walk, visitor, Node.mayCall, Node.children] using ho
  | call callee arguments body attributes spreads location =>
    have hb := keeps_walkOption body
      (if isDynamic callee then { use with dynamic := true } else use.add callee)
    rw [keeps_call, Bool.or_eq_true, or_assoc] at hb
    simpa [Node.walk, visitor, Node.mayCall, Node.children] using hb
  | text | comment | doctype | mixinBlock | yieldBlock | includeFilter | rawInclude | «extends» =>
    simp [Node.walk, visitor, Node.mayCall, Node.children, MayCall.nil_iff]

theorem keeps_walkBlock (body : BlockOf Node) (use : MixinUse) :
    (walkBlock visitor body use).2.keeps name ↔
      use.keeps name ∨ MayCall name body.nodes := by
  cases body with
  | mk nodes location => simpa [walkBlock] using keeps_walkNodes nodes use

theorem keeps_walkOption (body : Option (BlockOf Node)) (use : MixinUse) :
    (walkOption visitor body use).2.keeps name ↔
      use.keeps name ∨ MayCall name (nodesOf body) := by
  cases body with
  | none => simp [walkOption, nodesOf, MayCall.nil_iff]
  | some body => simpa [walkOption, nodesOf] using keeps_walkBlock body use

theorem keeps_walkBranch (branch : BranchOf Node) (use : MixinUse) :
    (walkBranch visitor branch use).2.keeps name ↔
      use.keeps name ∨ MayCall name branch.body.nodes := by
  cases branch with
  | mk test body location => simpa [walkBranch] using keeps_walkBlock body use

theorem keeps_walkBranches (branches : List (BranchOf Node)) (use : MixinUse) :
    (walkBranches visitor branches use).2.keeps name ↔
      use.keeps name ∨ MayCall name (branches.flatMap fun branch => branch.body.nodes) := by
  cases branches with
  | nil => simp [walkBranches, MayCall.nil_iff]
  | cons b bs =>
    have hb := keeps_walkBranch b use
    have hbs := keeps_walkBranches bs (walkBranch visitor b use).2
    rw [hb, or_assoc, ← MayCall.append_iff] at hbs
    simpa [walkBranches] using hbs

theorem keeps_walkNodes (nodes : List Node) (use : MixinUse) :
    (walkNodes visitor nodes use).2.keeps name ↔
      use.keeps name ∨ MayCall name nodes := by
  cases nodes with
  | nil => simp [walkNodes, MayCall.nil_iff]
  | cons n ns =>
    have hn := keeps_walk n use
    have hns := keeps_walkNodes ns (n.walk visitor use).2
    rw [hn, or_assoc, ← MayCall.cons_iff] at hns
    simpa [walkNodes] using hns

end

end Walk

/-- **The mixins that a tree keeps** are those that a call anywhere in it may reach. -/
theorem keeps_mixinUse_iff (root : Block) (name : String) : root.mixinUse.keeps name ↔
      ∃ above node, Occurs root above node ∧ node.mayCall name := by
  have hwa : root.mixinUse.keeps name ↔ MayCall name root.nodes := by
    simpa [keeps, Block.mixinUse, Block.walk] using keeps_walkBlock name root {}
  rw [hwa]
  constructor
  · rintro ⟨top, ht, node, hw, hc⟩
    obtain ⟨above, ho⟩ := occurs_iff_within.2 ⟨top, ht, hw⟩
    exact ⟨above, node, ho, hc⟩
  · rintro ⟨above, node, ho, hc⟩
    obtain ⟨top, ht, hw⟩ := occurs_iff_within.1 ⟨above, ho⟩
    exact ⟨top, ht, node, hw, hc⟩

end PugTemplate
