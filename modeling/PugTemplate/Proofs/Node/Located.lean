import PugTemplate.Node.OfTokens
import PugTemplate.Proofs.Token.Places
/-!
# Places of nodes

One of the tokens of a template stands for its end, and every token has its place in the text.
-/

namespace PugTemplate

open List

/-! ## Nodes of a tree -/

/-- The nodes of a block that may be missing. -/
def nodesOf (body : Option Block) : List Node := (body.map fun b => b.nodes).getD []

namespace Node

def children : Node → List Node
  | .block body => body.nodes
  | .namedBlock _ _ body _ => body.nodes
  | .tag _ body => body.nodes
  | .code _ body => nodesOf body
  | .blockComment _ body _ _ => body.nodes
  | .each _ _ _ body otherwise _ => body.nodes ++ nodesOf otherwise
  | .while _ body _ => body.nodes
  | .conditional first others otherwise =>
    first.body.nodes ++ others.flatMap (fun branch => branch.body.nodes) ++ nodesOf otherwise
  | .case _ body _ => body.nodes
  | .when _ body _ => nodesOf body
  | .mixin _ _ body _ => body.nodes
  | .call _ _ body _ _ _ => nodesOf body
  | .filter _ body _ _ => body.nodes
  | .include _ body _ => body.nodes
  | _ => []

end Node

/-- A property of a node and of all nodes below it. -/
inductive Everywhere (P : Node → Prop) : Node → Prop where
  | mk {node : Node} (here : P node) (children : ∀ child ∈ node.children, Everywhere P child) :
      Everywhere P node

/-- A property of nodes and of all nodes below them. -/
def Throughout (P : Node → Prop) (nodes : List Node) : Prop := ∀ node ∈ nodes, Everywhere P node

variable {P : Node → Prop} {node : Node}

theorem Everywhere.here (h : Everywhere P node) : P node := by
  obtain ⟨hn, -⟩ := h
  exact hn

theorem Everywhere.children (h : Everywhere P node) : Throughout P node.children := by
  obtain ⟨-, hc⟩ := h
  exact hc

namespace Throughout

variable {a b : List Node}

theorem nil : Throughout P [] := forall_mem_nil _

theorem append (ha : Throughout P a) (hb : Throughout P b) : Throughout P (a ++ b) :=
  forall_mem_append.mpr ⟨ha, hb⟩

theorem add (ha : Throughout P a) (hn : Everywhere P node) : Throughout P (a ++ [node]) :=
  ha.append (forall_mem_singleton.mpr hn)

theorem spliced (hn : Everywhere P node) : Throughout P (TreeSetting.spliced node) := by
  unfold TreeSetting.spliced
  split
  · exact hn.children
  · exact forall_mem_singleton.mpr hn

end Throughout

/-! ## Places -/

/-- A diagnostic that points to a place in a file. -/
structure Diagnostic.PointsInto (d : Diagnostic) (file : Option String) (place : Position → Prop) :
    Prop where
  file : d.file = file
  category : d.category ≠ .endOfStream
  position : place d.position

/-- A reader stops because it refuses the tokens, and its diagnostic has a property. -/
def Halt.Refuses (P : Diagnostic → Prop) : Halt → Prop
  | .refused d => P d
  | .exhausted => False

/-- A location at a place in a file. -/
structure Location.IsIn (l : Location) (file : Option String) (place : Position → Prop) : Prop where
  file : l.file = file
  position : place l.position

def Node.IsIn (file : Option String) (place : Position → Prop) (node : Node) : Prop :=
  node.location.IsIn file place

/-! ## Tokens -/

/-- Tokens with their places, one of which stands for the end. -/
structure Ready (place : Position → Prop) (ts : TokenStream) : Prop where
  ends : ∃ t ∈ ts, t.kind = .eos
  places : ∀ t ∈ ts, place t.position

variable {place : Position → Prop} {t : Token} {ts : TokenStream}

theorem Ready.pos (h : Ready place ts) : 0 < ts.length := by
  obtain ⟨t, ht, -⟩ := h.ends
  exact length_pos_of_mem ht

theorem Ready.tail (h : Ready place (t :: ts)) (ht : t.kind ≠ .eos) : Ready place ts := by
  obtain ⟨u, hu, heo⟩ := h.ends
  refine ⟨⟨u, ?_, heo⟩, fun v hv => h.places v (mem_cons_of_mem t hv)⟩
  refine (mem_cons.mp hu).resolve_left ?_
  rintro rfl
  exact ht heo

theorem Ready.head (h : Ready place (t :: ts)) : place t.position :=
  h.places t mem_cons_self

end PugTemplate
