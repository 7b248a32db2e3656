import PugTemplate.Proofs.Node.Productions
/-!
# The shape of trees

What can be relied on in every tree that is read from tokens: where the places for the content of a
mixin's call stand, where branches of choices stand, and which nodes have content.
-/

namespace PugTemplate

open List TokenKind

/-! ## Nodes of a tree -/

namespace Node

/-- The definition of a mixin. It has a body by its type. -/
def isMixin : Node → Bool
  | .mixin _ _ _ _ => true
  | _ => false

/-- The place where a mixin puts the content of its call. -/
def isMixinBlock : Node → Bool
  | .mixinBlock _ => true
  | _ => false

def isCase : Node → Bool
  | .case _ _ _ => true
  | _ => false

def isBranch : Node → Bool
  | .when _ _ _ => true
  | _ => false

/-- What a node has to be like on its own: a call has content or no block at all, code with a block
is neither written nor part of a line, and the filters of an included file are no nodes. -/
def isSound : Node → Bool
  | .call _ _ (some body) _ _ _ => !body.nodes.isEmpty
  | .code head (some _) => !head.buffer && !head.inline
  | .includeFilter _ => false
  | _ => true

end Node

/-- A node occurs in a tree below its ancestors, of which the innermost one comes first. -/
inductive Occurs (root : Block) : List Node → Node → Prop where
  | top {node} (h : node ∈ root.nodes) : Occurs root [] node
  | child {above parent node} (hparent : Occurs root above parent) (h : node ∈ parent.children) :
      Occurs root (parent :: above) node

/-- What a node has to be like below its ancestors. -/
structure WellPlaced (above : List Node) (node : Node) : Prop where
  sound : node.isSound = true
  /-- The place for the content of a call stands inside of a mixin's definition. -/
  place : node.isMixinBlock = true → ∃ ancestor ∈ above, ancestor.isMixin = true
  /-- The children of a choice are branches, and there are no other branches. -/
  branch : node.isBranch = true ↔ ∃ parent ∈ above.head?, parent.isCase = true

/-! ## Derivations -/

/-- The shape of a node that stands inside of a mixin's definition or not, and of all nodes below
it. -/
inductive Shaped : Bool → Node → Prop where
  | mk {m node} (sound : node.isSound = true) (place : (!node.isMixinBlock || m) = true)
      (branches : ∀ child ∈ node.children, child.isBranch = node.isCase)
      (children : ∀ child ∈ node.children, Shaped (m || node.isMixin) child) : Shaped m node

/-- Nodes of that shape, all of them branches of a choice or none. -/
def AllShaped (m branch : Bool) (nodes : List Node) : Prop :=
  ∀ node ∈ nodes, node.isBranch = branch ∧ Shaped m node

def Phrase.Shaped (m : Bool) : Phrase → Prop
  | .nodes a => AllShaped m false a
  | .content a => AllShaped m false a
  | .branches a => AllShaped m true a
  | .others bs otherwise =>
    (∀ b ∈ bs, AllShaped m false b.body.nodes) ∧ AllShaped m false (nodesOf otherwise)

namespace AllShaped

variable {m branch : Bool} {node : Node} {a b : List Node}

theorem nil : AllShaped m branch [] := by
  intro n hn
  exact absurd hn not_mem_nil

theorem append (ha : AllShaped m branch a) (hb : AllShaped m branch b) :
    AllShaped m branch (a ++ b) := by
  intro n hn
  exact (mem_append.mp hn).elim (ha n) (hb n)

theorem cons (hb : node.isBranch = branch) (hno : Shaped m node)
    (ha : AllShaped m branch a) : AllShaped m branch (node :: a) := by
  intro n hn
  rcases mem_cons.mp hn with rfl | hn
  · exact ⟨hb, hno⟩
  · exact ha n hn

end AllShaped

variable {m head : Bool} {node : Node} {p : Phrase} {ts rest : TokenStream} {bodies : List Bool}
  {k : TokenKind}

theorem Shaped.of_children (hs : node.isSound) (hp : (!node.isMixinBlock || m) = true)
    (h : AllShaped (m || node.isMixin) node.isCase node.children) : Shaped m node :=
  .mk hs hp (fun c hc => (h c hc).1) fun c hc => (h c hc).2

theorem Shaped.allShaped_children (h : Shaped m node) :
    AllShaped (m || node.isMixin) node.isCase node.children := by
  obtain ⟨-, -, hb, hch⟩ := h
  exact fun c hc => ⟨hb c hc, hch c hc⟩

/-- Apart from the definitions of mixins, a node is inside of what its content is inside of. -/
theorem Shaped.of_content (hs : node.isSound)
    (hp : (!node.isMixinBlock || m) = true) (hm : node.isMixin = false)
    (h : AllShaped m node.isCase node.children) : Shaped m node := by
  refine .of_children hs hp ?_
  rw [hm, Bool.or_false]
  exact h

theorem AllShaped.plain (h : AllShaped m false node.children) (hs : node.isSound)
    (hp : (!node.isMixinBlock || m) = true) (hm : node.isMixin = false)
    (hc : node.isCase = false) (hb : node.isBranch = false) : AllShaped m false [node] :=
  .cons hb (.of_content hs hp hm (hc ▸ h)) .nil

theorem AllShaped.retext {a b : List Node} (hab : SameButText a b) (ha : AllShaped m false a) :
    AllShaped m false b := by
  intro n hn
  cases ht : n.isText with
  | true =>
    cases n with
    | text text html location =>
      exact plain .nil rfl rfl rfl rfl rfl _ (mem_singleton_self _)
    | _ => exact absurd ht (by simp [Node.isText])
  | false =>
    have hm : n ∈ b.filter fun node => !node.isText := mem_filter.mpr ⟨hn, by simp [ht]⟩
    rw [← show _ = _ from hab] at hm
    exact ha n (mem_filter.mp hm).1

theorem Reads.shaped (h : Reads m ts p rest) : p.Shaped m := by
  induction h with
  | nil | skip | noBranch => exact AllShaped.nil
  | append _ _ ha hb => exact AllShaped.append ha hb
  | retext _ hab ha => exact AllShaped.retext hab ha
  | group _ ih | tag _ _ _ ih | bareTag _ _ _ _ ih | namedBlock _ _ _ ih | «while» _ _ _ ih =>
    exact AllShaped.plain ih rfl rfl rfl rfl rfl
  | @ungroup m _ _ body _ ih =>
    have hbl : Shaped m (.block body) := (ih _ (mem_singleton_self _)).2
    have hbo : AllShaped (m || false) false body.nodes := hbl.allShaped_children
    rw [Bool.or_false] at hbo
    exact hbo
  | enclosed _ _ ih | content _ _ _ _ ih | textContent _ _ _ _ ih => exact ih
  | lostContent _ _ _ _ _ _ _ ih => exact ih
  | @leaf _ _ _ node _ hno =>
    cases node with
    | comment | doctype | yieldBlock | rawInclude | «extends» =>
      exact AllShaped.plain AllShaped.nil rfl rfl rfl rfl rfl
    | _ => exact absurd hno (by simp [Node.isLeaf])
  | @wrap _ _ _ _ node body _ hno _ ih =>
    cases node with
    | blockComment | filter | «include» =>
      cases hno
      exact AllShaped.plain ih rfl rfl rfl rfl rfl
    | _ => exact absurd hno (by simp [Node.wrapped?])
  | mixinBlock | code | blockCode => exact AllShaped.plain AllShaped.nil rfl rfl rfl rfl rfl
  | codeBlock _ hh hi _ ih =>
    exact AllShaped.plain ih (by simp [Node.isSound, hh.buffer, hi]) rfl rfl rfl rfl
  | @call _ _ _ _ _ _ _ _ _ body _ _ _ ih =>
    cases hem : body.nodes.isEmpty with
    | true => exact AllShaped.plain AllShaped.nil rfl rfl rfl rfl rfl
    | false => exact AllShaped.plain ih (by simp [Node.isSound, hem]) rfl rfl rfl rfl
  | mixin _ _ _ _ _ ih =>
    refine AllShaped.cons rfl (.of_children rfl rfl ?_) AllShaped.nil
    rw [Node.isMixin, Bool.or_true]
    exact ih
  | each _ _ _ ih =>
    exact AllShaped.plain (AllShaped.append ih AllShaped.nil) rfl rfl rfl rfl rfl
  | eachElse _ _ _ _ _ ih ihother =>
    exact AllShaped.plain (AllShaped.append ih ihother) rfl rfl rfl rfl rfl
  | conditional _ _ _ _ ih ihothers =>
    refine AllShaped.plain (AllShaped.append (AllShaped.append ih ?_) ihothers.2) rfl rfl rfl rfl rfl
    intro n hn
    obtain ⟨branch, hbr, hn⟩ := mem_flatMap.mp hn
    exact ihothers.1 branch hbr n hn
  | case _ _ _ _ _ ih =>
    exact AllShaped.cons rfl (.of_content rfl rfl rfl ih) AllShaped.nil
  | skipBranch _ _ ih => exact ih
  | fallThrough _ _ _ ih =>
    exact AllShaped.cons rfl (.of_content rfl rfl rfl AllShaped.nil) ih
  | branch _ _ _ _ _ ihbody ih =>
    exact AllShaped.cons rfl (.of_content rfl rfl rfl ihbody) ih
  | noOther | emptyElse => exact ⟨fun _ hb => absurd hb not_mem_nil, AllShaped.nil⟩
  | skipOther _ _ ih => exact ih
  | elseIf _ _ _ _ ihbody ih =>
    refine ⟨fun b hb => ?_, ih.2⟩
    rcases mem_cons.mp hb with rfl | hb
    · exact ihbody
    · exact ih.1 b hb
  | «else» _ _ ih => exact ⟨fun _ hb => absurd hb not_mem_nil, ih⟩

theorem Occurs.wellPlaced {root : Block} (hr : AllShaped false false root.nodes)
    {above : List Node} (h : Occurs root above node) : WellPlaced above node := by
  -- the flag of `Shaped` is whether there is a definition of a mixin above
  have hs : Shaped (above.any Node.isMixin) node ∧ node.isBranch = above.head?.any Node.isCase := by
    induction h with
    | top h => exact ⟨(hr _ h).2, (hr _ h).1⟩
    | @child above parent node _ h ih =>
      obtain ⟨hb, hn⟩ := ih.1.allShaped_children node h
      rw [Bool.or_comm] at hn
      exact ⟨hn, hb⟩
  obtain ⟨⟨hso, hp, -, -⟩, hb⟩ := hs
  refine ⟨hso, fun hm => ?_, ?_⟩
  · rw [hm] at hp
    exact any_eq_true.mp hp
  · rw [hb]
    exact Option.any_eq_true _ _

/-! ## Places for content outside of mixins -/

/-- A token that neither is a place for content nor opens or closes a body, and is not the last. -/
def TokenKind.isNeutral : TokenKind → Bool
  | .eos => false
  | .mixinBlock => false
  | .mixin _ _ => false
  | .indent _ => false
  | .outdent => false
  | _ => true

/-- Up to its end, a token list has a place for content outside of every mixin's body. The first
argument tells of each open indent, innermost first, whether it opens the body of a mixin; the
second one tells whether the token before is the head of a mixin. -/
def strays (bodies : List Bool) (head : Bool) : TokenStream → Bool
  | [] => false
  | t :: ts =>
    match t.kind with
    | .eos => false
    | .mixinBlock => !bodies.any id || strays bodies false ts
    | .mixin _ _ => strays bodies true ts
    | .indent _ => strays (head :: bodies) false ts
    | .outdent => strays bodies.tail false ts
    | _ => strays bodies false ts

theorem strays_cons {t : Token} (ht : t.kind.isNeutral) :
    strays bodies head (t :: ts) = strays bodies false ts := by
  rw [strays]
  cases hk : t.kind with
  | eos | mixinBlock | mixin | indent | outdent => exact absurd ht (by simp [hk, isNeutral])
  | _ => rfl

theorem strays_body {i o : Token} {width : Nat} (hi : i.kind = .indent width)
    (ho : o.kind = .outdent)
    (h : strays (head :: bodies) false ts = strays (head :: bodies) false (o :: rest)) :
    strays bodies head (i :: ts) = strays bodies false rest := by
  have hop : strays bodies head (i :: ts) = strays (head :: bodies) false ts := by
    rw [strays]
    simp only [hi]
  have hc : strays (head :: bodies) false (o :: rest) = strays bodies false rest := by
    rw [strays]
    simp only [ho, tail_cons]
  rw [hop, h, hc]

theorem strays_append {front : TokenStream} (hf : ∀ t ∈ front, t.kind.isNeutral) :
    strays bodies false (front ++ ts) = strays bodies false ts := by
  induction front with
  | nil => rfl
  | cons t front ih =>
    rw [cons_append, strays_cons (hf t (mem_cons_self ..))]
    exact ih fun u hu => hf u (mem_cons_of_mem _ hu)

theorem TokenKind.isNeutral_of_isText (h : k.isText) : k.isNeutral := by
  cases k <;> first | rfl | exact absurd h (by simp [isText])

theorem TokenKind.isNeutral_of_isInert (h : k.isInert) : k.isNeutral := by
  cases k <;> first | rfl | exact absurd h (by simp [isInert])

theorem TokenKind.isNeutral_of_isHeadPart (h : k.isHeadPart) : k.isNeutral := by
  cases k <;> first | rfl | exact absurd h (by simp [isHeadPart])

theorem TokenKind.isNeutral_of_branchValue? {value : String} (h : k.branchValue? = some value) :
    k.isNeutral := by
  cases k <;> first | rfl | exact absurd h (by simp [branchValue?])

theorem Unmarked.strays_eq {mid : TokenStream} (h : Unmarked ts mid) :
    strays bodies false ts = strays bodies false mid := by
  obtain rfl | ⟨t, rfl, ht⟩ := h
  · rfl
  · exact strays_cons (by rcases ht with ht | ht <;> rw [ht] <;> rfl)

theorem CodeText.strays_eq {source : String} (h : CodeText ts source rest) :
    strays bodies false ts = strays bodies false rest := by
  obtain ⟨-, rfl, -⟩ | ⟨first, lines, last, rfl, hf, hl, hla, -⟩ := h
  · rfl
  · rw [cons_append, strays_cons (by rw [hf]; rfl), strays_append ?_,
      strays_cons (by rw [hla]; rfl)]
    intro t ht
    rcases hl t ht with ht | ⟨_, ht⟩ <;> rw [ht] <;> rfl

/-- **What is read has no stray places for content**: whether there are some shows in the rest. -/
theorem Reads.strays_eq (h : Reads m ts p rest) (bodies : List Bool) (hm : bodies.any id = m) :
    strays bodies false ts = strays bodies false rest := by
  induction h generalizing bodies with
  | nil | noBranch | noOther => rfl
  | append _ _ ha hb => exact (ha bodies hm).trans (hb bodies hm)
  | skip ht => exact strays_cons (isNeutral_of_isText ht)
  | retext _ _ ih | group _ ih | ungroup _ ih => exact ih bodies hm
  | enclosed hk _ ih =>
    obtain ⟨⟨width, hi⟩, ho⟩ | ⟨hi, ho⟩ | ⟨hi, ho⟩ := hk
    · exact strays_body hi ho (ih (false :: bodies) hm)
    all_goals rw [strays_cons (by rw [hi]; rfl), ih bodies hm, strays_cons (by rw [ho]; rfl)]
  | leaf hf => exact strays_append fun t ht => isNeutral_of_isInert (hf t ht)
  | wrap hf _ _ ih =>
    rw [strays_append fun t ht => isNeutral_of_isInert (hf t ht), ih bodies hm]
  | mixinBlock ht =>
    rw [strays]
    simp only [ht, hm, Bool.not_true, Bool.false_or]
  | code ht =>
    exact strays_cons (by rcases ht with ht | ht <;> rw [ht] <;> rfl)
  | codeBlock ht _ _ _ ih => rw [strays_cons (by rw [ht]; rfl), ih bodies hm]
  | blockCode ht _ h => rw [strays_cons (by rw [ht]; rfl), h.strays_eq]
  | content hf _ hma _ ih =>
    rw [strays_append fun t ht => isNeutral_of_isHeadPart (hf t ht), hma.strays_eq, ih bodies hm]
  | textContent hf ht hma _ ih =>
    rw [strays_append fun t ht => isNeutral_of_isHeadPart (hf t ht),
      strays_cons (by rw [ht]; rfl), hma.strays_eq, ih bodies hm]
  | lostContent hf ht _ hma _ _ ihlost ih =>
    rw [strays_append fun t ht => isNeutral_of_isHeadPart (hf t ht),
      strays_cons (by rw [ht]; rfl), hma.strays_eq, ihlost bodies hm, ih bodies hm]
  | @tag _ _ _ _ head _ ht _ _ ih =>
    rw [strays_cons (by rw [ht]; cases head.label <;> rfl), ih bodies hm]
  | bareTag _ _ _ _ ih => exact ih bodies hm
  | call ht _ _ ih | namedBlock ht _ _ ih | «while» ht _ _ ih | each ht _ _ ih
  | skipOther ht _ ih | «else» ht _ ih | fallThrough ht _ _ ih =>
    rw [strays_cons (by rw [ht]; rfl), ih bodies hm]
  | mixin ht _ hi ho _ ih =>
    rw [strays]
    simp only [ht]
    exact strays_body hi ho (ih (true :: bodies) rfl)
  | eachElse ht _ _ hu _ ih ihother =>
    rw [strays_cons (by rw [ht]; rfl), ih bodies hm, strays_cons (by rw [hu]; rfl), ihother bodies hm]
  | conditional ht _ _ _ ih ihothers | elseIf ht _ _ _ ih ihothers =>
    rw [strays_cons (by rw [ht]; rfl), ih bodies hm, ihothers bodies hm]
  | case ht _ hi ho _ ih =>
    rw [strays_cons (by rw [ht]; rfl)]
    exact strays_body hi ho (ih (false :: bodies) hm)
  | skipBranch ht _ ih =>
    rw [strays_cons (by rcases ht with ht | ⟨_, _, ht⟩ <;> rw [ht] <;> rfl), ih bodies hm]
  | branch ht _ hma _ _ ihbody ih =>
    rw [strays_cons (isNeutral_of_branchValue? ht), hma.strays_eq, ihbody bodies hm, ih bodies hm]
  | emptyElse ht => exact strays_cons (by rw [ht]; rfl)

/-! ## Trees -/

/-- **The shape of trees.** In the tree of any token list every node is well placed, and there is
no tree where a place for content stands outside of every mixin's body. -/
theorem ofTokens_wellPlaced (file : Option String) (tokens : TokenStream) :
    (∀ tree, Block.ofTokens file {} tokens = .ok tree →
      ∀ above node, Occurs tree above node → WellPlaced above node) ∧
    (strays [] false tokens = true → ∀ tree, Block.ofTokens file {} tokens ≠ .ok tree) := by
  constructor
  · intro tree htree above node hnode
    obtain ⟨_, _, -, h⟩ := reads_ofTokens htree
    exact hnode.wellPlaced h.shaped
  · intro hstrays tree htree
    obtain ⟨last, rest, hlast, h⟩ := reads_ofTokens htree
    have hend : strays [] false (last :: rest) = false := by
      rw [strays]
      simp only [hlast]
    rw [h.strays_eq [] rfl, hend] at hstrays
    exact absurd hstrays Bool.false_ne_true

/-- A mixin with a place for content in a branch of a choice, a call of it with content, and the
same place behind the mixin's body. -/
theorem ofTokens_wellPlaced_mixin :
    let tokens (kinds : List TokenKind) : TokenStream := kinds.map (⟨·, ⟨1, 1⟩⟩)
    let body : List TokenKind := [.mixin "m" none, .indent 2, .case "x", .indent 4, .when "1",
      .indent 6, .mixinBlock, .outdent, .outdent, .outdent]
    let call : List TokenKind := [.call "m" none, .indent 2, .tag "p", .outdent]
    (∃ tree, Block.ofTokens none {} (tokens (body ++ call ++ [.eos])) = .ok tree ∧
      ∀ above node, Occurs tree above node → WellPlaced above node) ∧
    ∀ tree, Block.ofTokens none {} (tokens (body ++ [.mixinBlock, .eos])) ≠ .ok tree := by
  intro tokens body call
  obtain ⟨tree, htree⟩ : ∃ tree, Block.ofTokens none {} (tokens (body ++ call ++ [.eos])) = .ok tree :=
    ⟨_, rfl⟩
  exact ⟨⟨tree, htree, (ofTokens_wellPlaced none _).1 tree htree⟩,
    (ofTokens_wellPlaced none _).2 rfl⟩

end PugTemplate
