import Mathlib.Data.List.Chain
import PugTemplate.Proofs.Node.Productions
import PugTemplate.Proofs.Token.Runs
/-!
# Constructs in tokens and in trees

A tag, a call, code, a condition and the like is announced by a token, and becomes a node. Both can
be listed: the tokens in the order of the stream, the nodes in document order. Reading a tree
neither adds a construct nor changes the order, and loses one only behind a dot on the line of a
tag, where a block of text takes the place of what the line has.
-/

namespace PugTemplate

open List TokenKind

/-! ## Constructs of tokens -/

def TokenKind.isCodePart : TokenKind → Bool
  | .newline => true
  | .text _ => true
  | _ => false

/-- The code in the block of text at the front of a stream. -/
def blockText : TokenStream → String
  | t :: ts =>
    if t.kind = .startPipelessText then
      String.join ((ts.takeWhile fun t => t.kind.isCodePart).map Token.codeText)
    else ""
  | [] => ""

/-- The construct that a token announces, by the kind of token that stands for it. An id or a class
belongs to the head of a tag that is open, or else to a tag of its own. -/
def TokenKind.construct? (inHead : Bool) (after : TokenStream) : TokenKind → Option TokenKind
  | .tag name => some (.tag name)
  | .interpolation source => some (.interpolation source)
  | .id _ => if inHead then none else some (.tag "div")
  | .class _ => if inHead then none else some (.tag "div")
  | .call name arguments => some (.call name arguments)
  | .mixin name parameters => some (.mixin name parameters)
  | .code source escape buffer => some (.code source escape buffer)
  | .interpolatedCode source escape buffer => some (.code source escape buffer)
  | .blockCode => some (.code (blockText after) false false)
  | .if test => some (.if test)
  | .elseIf test => some (.elseIf test)
  | .each item key list => some (.each item key list)
  | .while test => some (.while test)
  | .case subject => some (.case subject)
  | .when value => some (.when value)
  | .default => some (.when "default")
  | .block name mode => some (.block (Text.trimString name) mode)
  | _ => none

/-- Whether the head of a tag or of a call is open after a token. -/
def TokenKind.leavesHead (inHead : Bool) : TokenKind → Bool
  | .tag _ => true
  | .interpolation _ => true
  | .call _ _ => true
  | .id _ => true
  | .class _ => true
  | .startAttributes => inHead
  | .attribute _ _ _ => inHead
  | .endAttributes => inHead
  | .spreadAttributes _ => inHead
  | _ => false

/-- The constructs that tokens announce, each at its place. -/
def constructs (inHead : Bool) : TokenStream → List Token
  | [] => []
  | t :: ts =>
    ((t.kind.construct? inHead ts).map (⟨·, t.position⟩)).toList ++
      constructs (t.kind.leavesHead inHead) ts

/-! ## Constructs of trees -/

mutual

/-- The constructs of a node in document order. -/
def Node.constructs : Node → List Token
  | .block body => bodyConstructs body
  | .namedBlock name mode body location =>
    ⟨.block name mode, location.position⟩ :: bodyConstructs body
  | .tag head body => ⟨head.label.token, head.location.position⟩ :: bodyConstructs body
  | .code head body =>
    ⟨.code head.source head.escape head.buffer, head.location.position⟩ :: optionConstructs body
  | .blockComment _ body _ _ => bodyConstructs body
  | .each item key list body otherwise location =>
    ⟨.each item key list, location.position⟩ :: (bodyConstructs body ++ optionConstructs otherwise)
  | .while test body location => ⟨.while test, location.position⟩ :: bodyConstructs body
  | .conditional first others otherwise =>
    branchConstructs .if first ++ (branchesConstructs others ++ optionConstructs otherwise)
  | .case subject body location => ⟨.case subject, location.position⟩ :: bodyConstructs body
  | .when value body location => ⟨.when value, location.position⟩ :: optionConstructs body
  | .mixin name parameters body location =>
    ⟨.mixin name parameters, location.position⟩ :: bodyConstructs body
  | .call name arguments body _ _ location =>
    ⟨.call name arguments, location.position⟩ :: optionConstructs body
  | .filter _ body _ _ => bodyConstructs body
  | .include _ body _ => bodyConstructs body
  | _ => []

def bodyConstructs : BlockOf Node → List Token
  | ⟨nodes, _⟩ => nodesConstructs nodes

/-- The constructs in a block that may be missing. -/
def optionConstructs : Option (BlockOf Node) → List Token
  | none => []
  | some body => bodyConstructs body

/-- The constructs of a branch, which is one itself. -/
def branchConstructs (kind : String → TokenKind) : BranchOf Node → List Token
  | ⟨test, body, location⟩ => ⟨kind test, location.position⟩ :: bodyConstructs body

/-- The constructs of the branches after the first one. -/
def branchesConstructs : List (BranchOf Node) → List Token
  | [] => []
  | b :: bs => branchConstructs .elseIf b ++ branchesConstructs bs

def nodesConstructs : List Node → List Token
  | [] => []
  | n :: ns => n.constructs ++ nodesConstructs ns

end

/-- The constructs of a tree in document order. -/
def Block.constructs (tree : Block) : List Token := bodyConstructs tree

theorem bodyConstructs_eq (body : Block) : bodyConstructs body = nodesConstructs body.nodes := by
  rw [bodyConstructs]

theorem nodesConstructs_append (a b : List Node) :
    nodesConstructs (a ++ b) = nodesConstructs a ++ nodesConstructs b := by
  induction a with
  | nil => rfl
  | cons n a ih => rw [cons_append, nodesConstructs, nodesConstructs, ih, append_assoc]

theorem nodesConstructs_singleton (node : Node) : nodesConstructs [node] = node.constructs := by
  rw [nodesConstructs, nodesConstructs, append_nil]

theorem SameButText.nodesConstructs_eq {a b : List Node} (h : SameButText a b) :
    nodesConstructs a = nodesConstructs b := by
  have hf : ∀ l : List Node,
      nodesConstructs (l.filter fun node => !node.isText) = nodesConstructs l := by
    intro l
    induction l with
    | nil => rfl
    | cons n l ih =>
      cases ht : n.isText with
      | true =>
        have hn : n.constructs = [] := by
          cases n with
          | text => rfl
          | _ => exact absurd ht (by simp [Node.isText])
        rw [filter_cons_of_neg (by simp [ht]), nodesConstructs, hn, nil_append, ih]
      | false =>
        rw [filter_cons_of_pos (by simp [ht]), nodesConstructs, nodesConstructs, ih]
  rw [← hf a, ← hf b, h]

/-! ## Comparing them -/

/-- No dot has content right behind it on its line. -/
def Tidy (ts : TokenStream) : Prop :=
  ts.IsChain fun t u => t.kind = .dot → u.kind.startsLine = false

/-- From `ts` to `rest`, the tokens announce the constructs in their order, and no other ones in
tidy streams. -/
def Lists (inHead : Bool) (ts rest : TokenStream) (listed : List Token) : Prop :=
  rest <:+ ts ∧ ∃ all, constructs inHead ts = all ++ constructs false rest ∧ listed.Sublist all ∧
    (Tidy ts → listed = all)

namespace Lists

variable {inHead : Bool} {t : Token} {ts mid rest : TokenStream} {k : TokenKind}
  {a b : List Token}

theorem refl : Lists false ts ts [] :=
  ⟨suffix_refl _, [], rfl, Sublist.refl _, fun _ => rfl⟩

theorem trans (ha : Lists inHead ts mid a) (hb : Lists false mid rest b) :
    Lists inHead ts rest (a ++ b) := by
  obtain ⟨hs, all, hal, hsu, ht⟩ := ha
  obtain ⟨hs', all', ha', hsu', ht'⟩ := hb
  refine ⟨hs'.trans hs, all ++ all', ?_, hsu.append hsu', fun h => ?_⟩
  · rw [hal, ha', append_assoc]
  · rw [ht h, ht' (h.suffix hs)]

theorem pass (ht : t.kind.construct? inHead ts = none)
    (h : Lists (t.kind.leavesHead inHead) ts rest a) : Lists inHead (t :: ts) rest a := by
  obtain ⟨hs, all, ha, hsu, hti⟩ := h
  refine ⟨hs.trans (suffix_cons _ _), all, ?_, hsu, fun h => hti h.tail⟩
  rw [constructs, ht, ha]
  rfl

/-- In front of what has been read stands a token that announces a construct. -/
theorem announce {kind : TokenKind} {at_ : Position} (ht : t.kind = kind)
    (hc : kind.construct? false ts = some k) (hat : at_ = t.position)
    (h : Lists (kind.leavesHead false) ts rest a) : Lists false (t :: ts) rest (⟨k, at_⟩ :: a) := by
  obtain ⟨hs, all, ha, hsu, hti⟩ := h
  subst ht hat
  refine ⟨hs.trans (suffix_cons _ _), ⟨k, t.position⟩ :: all, ?_, hsu.cons_cons _, fun h => ?_⟩
  · rw [constructs, hc, ha]
    rfl
  · rw [hti h.tail]

end Lists

/-- A token that announces nothing and closes the head of a tag. -/
def TokenKind.isQuiet (k : TokenKind) : Prop :=
  (∀ after, k.construct? false after = none) ∧ k.leavesHead false = false

variable {a tokens : List Token} {t : Token} {ts rest front mid : TokenStream} {k : TokenKind}
  {source : String}

theorem Lists.quiet {kind : TokenKind} (ht : t.kind = kind) (hk : kind.isQuiet)
    (h : Lists false ts rest a) : Lists false (t :: ts) rest a := by
  subst ht
  exact .pass (hk.1 ts) (by rw [hk.2]; exact h)

theorem Lists.enclosed {i o : Token} {first last : TokenKind} (hi : i.kind = first)
    (ho : o.kind = last) (hf : first.isQuiet) (hl : last.isQuiet)
    (h : Lists false ts (o :: rest) a) : Lists false (i :: ts) rest a :=
  .quiet hi hf (append_nil a ▸ h.trans (.quiet ho hl .refl))

theorem Lists.quiet_append (hf : ∀ t ∈ front, t.kind.isQuiet) (h : Lists false ts rest a) :
    Lists false (front ++ ts) rest a := by
  induction front with
  | nil => exact h
  | cons t front ih =>
    exact .quiet rfl (hf t (mem_cons_self ..)) (ih fun u hu => hf u (mem_cons_of_mem _ hu))

theorem TokenKind.isQuiet_of_isText (h : k.isText) : k.isQuiet := by
  cases k <;> first | exact ⟨fun _ => rfl, rfl⟩ | exact absurd h (by simp [isText])

theorem TokenKind.isQuiet_of_isInert (h : k.isInert) : k.isQuiet := by
  cases k <;> first | exact ⟨fun _ => rfl, rfl⟩ | exact absurd h (by simp [isInert])

theorem Lists.head_append (hf : ∀ t ∈ front, t.kind.isHeadPart)
    (h : Lists true ts rest a) : Lists true (front ++ ts) rest a := by
  induction front with
  | nil => exact h
  | cons t front ih =>
    have hr := ih fun u hu => hf u (mem_cons_of_mem _ hu)
    have ht := hf t (mem_cons_self ..)
    have hki : ∀ after, t.kind.construct? true after = none ∧ t.kind.leavesHead true := by
      intro after
      cases hk : t.kind <;> first | exact ⟨rfl, rfl⟩ | exact absurd ht (by simp [hk, isHeadPart])
    exact .pass (hki _).1 (by rw [(hki []).2]; exact hr)

theorem Lists.close_head (hts : ∀ t ∈ ts.head?, t.kind.isHeadPart = false)
    (h : Lists false ts rest a) : Lists true ts rest a := by
  have hsa : constructs true ts = constructs false ts := by
    cases ts with
    | nil => rfl
    | cons t ts =>
      have ht := hts t rfl
      rw [constructs, constructs]
      cases hk : t.kind <;> first | rfl | exact absurd ht (by simp [hk, isHeadPart])
  obtain ⟨hs, all, ha, hsu, hti⟩ := h
  exact ⟨hs, all, hsa.trans ha, hsu, hti⟩

theorem Lists.unmarked (hm : Unmarked ts mid) (h : Lists false mid rest a) :
    Lists false ts rest a := by
  obtain rfl | ⟨t, rfl, ht⟩ := hm
  · exact h
  · rcases ht with ht | ht <;> exact .quiet ht ⟨fun _ => rfl, rfl⟩ h

theorem Lists.bare {at_ : Position}
    (ht : (∃ name, t.kind = .id name) ∨ ∃ name, t.kind = .class name) (hat : at_ = t.position)
    (h : Lists true (t :: ts) rest a) : Lists false (t :: ts) rest (⟨.tag "div", at_⟩ :: a) := by
  obtain ⟨hs, all, ha, hsu, hti⟩ := h
  subst hat
  refine ⟨hs, ⟨.tag "div", t.position⟩ :: all, ?_, hsu.cons_cons _, fun h => ?_⟩
  · rw [cons_append, ← ha, constructs, constructs]
    obtain ⟨_, ht⟩ | ⟨_, ht⟩ := ht <;> rw [ht] <;> rfl
  · rw [hti h]

/-- What stands on the line behind a dot is lost, and the tokens are not tidy. -/
theorem Lists.lose {lost : List Token} (ht : t.kind = .dot)
    (hts : ∃ u ∈ ts.head?, u.kind.startsLine) (hlo : Lists false ts mid lost)
    (h : Lists false mid rest a) : Lists false (t :: ts) rest a := by
  obtain ⟨hs, all, ha, hsu, -⟩ := (hlo.trans h).quiet ht ⟨fun _ => rfl, rfl⟩
  refine ⟨hs, all, ha, (sublist_append_right lost a).trans hsu, fun hti => ?_⟩
  obtain ⟨u, hu, hst⟩ := hts
  have hl := hti.rel_head? hu ht
  rw [hst] at hl
  exact absurd hl Bool.true_eq_false.mp

/-! ## Derivations -/

def Phrase.constructs : Phrase → List Token
  | .nodes a => nodesConstructs a
  | .content a => nodesConstructs a
  | .branches a => nodesConstructs a
  | .others bs otherwise => branchesConstructs bs ++ optionConstructs otherwise

/-- What follows the name of a tag or of a call starts in its head. -/
def Phrase.inHead : Phrase → Bool
  | .content _ => true
  | _ => false

theorem Lists.node {node : Node} (h : Lists false ts rest node.constructs) :
    Lists (Phrase.nodes [node]).inHead ts rest (Phrase.nodes [node]).constructs := by
  rw [Phrase.constructs, nodesConstructs_singleton]
  exact h

theorem CodeText.blockText_eq (h : CodeText ts source rest) : blockText ts = source := by
  obtain ⟨rfl, rfl, hts⟩ | ⟨first, lines, last, rfl, hf, hl, hla, rfl⟩ := h
  · cases rest with
    | nil => rfl
    | cons t rest => rw [blockText, if_neg (hts t rfl)]
  · have hta : (lines ++ last :: rest).takeWhile (fun t => t.kind.isCodePart) = lines := by
      rw [takeWhile_append_of_pos, takeWhile_cons_of_neg, append_nil]
      · simp [hla, isCodePart]
      · intro t ht
        rcases hl t ht with ht | ⟨_, ht⟩ <;> rw [ht] <;> rfl
    rw [cons_append, blockText, if_pos hf, hta]

theorem CodeText.lists (h : CodeText ts source rest) : Lists false ts rest [] := by
  obtain ⟨-, rfl, -⟩ | ⟨first, lines, last, rfl, hf, hl, hla, -⟩ := h
  · exact .refl
  · refine .enclosed hf hla ⟨fun _ => rfl, rfl⟩ ⟨fun _ => rfl, rfl⟩ (.quiet_append ?_ .refl)
    intro t ht
    rcases hl t ht with ht | ⟨_, ht⟩ <;> rw [ht] <;> exact ⟨fun _ => rfl, rfl⟩

/-- **A derivation lists what it reads**: the constructs of its nodes are announced by its tokens in
the same order, and all of those that are announced become nodes where the tokens are tidy. -/
theorem Reads.lists {m : Bool} {p : Phrase} (h : Reads m ts p rest) :
    Lists p.inHead ts rest p.constructs := by
  induction h with
  | nil | noBranch | noOther => exact .refl
  | append _ _ ha hb =>
    rw [Phrase.constructs, nodesConstructs_append]
    exact ha.trans hb
  | skip ht => exact .quiet rfl (isQuiet_of_isText ht) .refl
  | retext _ hab ih =>
    rw [Phrase.constructs, ← hab.nodesConstructs_eq]
    exact ih
  | group _ ih =>
    refine .node ?_
    rw [Node.constructs, bodyConstructs_eq]
    exact ih
  | ungroup _ ih =>
    rw [Phrase.constructs, nodesConstructs_singleton, Node.constructs, bodyConstructs_eq] at ih
    exact ih
  | enclosed hki _ ih =>
    obtain ⟨⟨width, hi⟩, ho⟩ | ⟨hi, ho⟩ | ⟨hi, ho⟩ := hki <;>
      exact .enclosed hi ho ⟨fun _ => rfl, rfl⟩ ⟨fun _ => rfl, rfl⟩ ih
  | @leaf _ _ _ node hf hn =>
    refine .node (.quiet_append (fun t ht => isQuiet_of_isInert (hf t ht)) ?_)
    cases node with
    | comment | doctype | yieldBlock | rawInclude | «extends» => exact .refl
    | _ => exact absurd hn (by simp [Node.isLeaf])
  | @wrap _ _ _ _ node _ hf hn _ ih =>
    refine .node (.quiet_append (fun t ht => isQuiet_of_isInert (hf t ht)) ?_)
    cases node with
    | blockComment | filter | «include» =>
      cases hn
      rw [Node.constructs, bodyConstructs_eq]
      exact ih
    | _ => exact absurd hn (by simp [Node.wrapped?])
  | mixinBlock ht => exact .node (.quiet ht ⟨fun _ => rfl, rfl⟩ .refl)
  | code ht hh =>
    refine .node ?_
    rw [Node.constructs, hh.source, hh.escape, hh.buffer]
    rcases ht with ht | ht <;> exact .announce ht rfl hh.position .refl
  | codeBlock ht hh _ _ ih =>
    refine .node ?_
    rw [Node.constructs, hh.source, hh.escape, hh.buffer, optionConstructs, bodyConstructs_eq]
    exact .announce ht rfl hh.position ih
  | blockCode ht hh h =>
    refine .node ?_
    rw [Node.constructs, hh.source, hh.escape, hh.buffer]
    refine .announce ht ?_ hh.position h.lists
    rw [construct?, h.blockText_eq]
  | content hf hts hm _ ih =>
    exact .head_append hf (.close_head hts (.unmarked hm ih))
  | textContent hf ht hm _ ih =>
    refine .head_append hf (.close_head ?_ (.quiet ht ⟨fun _ => rfl, rfl⟩ (.unmarked hm ih)))
    simp [ht, isHeadPart]
  | lostContent hf ht hts hm _ _ ihlost ih =>
    refine .head_append hf (.close_head ?_ (.lose ht hts (.unmarked hm ihlost) ih))
    simp [ht, isHeadPart]
  | @tag _ _ _ _ head _ ht hl _ ih =>
    refine .node ?_
    rw [Node.constructs, bodyConstructs_eq]
    refine .announce ht ?_ hl ?_
    all_goals cases head.label
    all_goals first | rfl | exact ih
  | bareTag ht hla hl _ ih =>
    refine .node ?_
    rw [Node.constructs, bodyConstructs_eq, hla]
    exact .bare ht hl ih
  | @call _ _ _ _ _ _ _ _ _ body ht hl _ ih =>
    refine .node ?_
    refine .announce ht rfl hl ?_
    cases hem : body.nodes.isEmpty with
    | true =>
      have hbo : nodesConstructs body.nodes = [] := by rw [isEmpty_iff.mp hem]; rfl
      rw [if_pos rfl, optionConstructs, ← hbo]
      exact ih
    | false =>
      rw [if_neg Bool.false_ne_true, optionConstructs, bodyConstructs_eq]
      exact ih
  | namedBlock ht hl _ ih | «while» ht hl _ ih =>
    refine .node ?_
    rw [Node.constructs, bodyConstructs_eq]
    exact .announce ht rfl hl ih
  | mixin ht hl hi ho _ ih | case ht hl hi ho _ ih =>
    refine .node ?_
    rw [Node.constructs, bodyConstructs_eq]
    refine .announce ht rfl hl ?_
    exact .enclosed hi ho ⟨fun _ => rfl, rfl⟩ ⟨fun _ => rfl, rfl⟩ ih
  | each ht hl _ ih =>
    refine .node ?_
    rw [Node.constructs, bodyConstructs_eq, optionConstructs, append_nil]
    exact .announce ht rfl hl ih
  | eachElse ht hl _ hu _ ih ihother =>
    refine .node ?_
    rw [Node.constructs, bodyConstructs_eq, optionConstructs, bodyConstructs_eq]
    exact .announce ht rfl hl (ih.trans (.quiet hu ⟨fun _ => rfl, rfl⟩ ihother))
  | conditional ht hl _ _ ih ihothers =>
    refine .node ?_
    rw [Node.constructs, branchConstructs, bodyConstructs_eq]
    exact .announce ht rfl hl (ih.trans ihothers)
  | skipBranch ht _ ih =>
    obtain ht | ⟨_, _, ht⟩ := ht <;> exact .quiet ht ⟨fun _ => rfl, rfl⟩ ih
  | fallThrough ht hl _ ih =>
    exact .announce ht rfl hl ih
  | @branch _ t _ _ _ _ _ _ _ _ ht hl hm _ _ ihbody ih =>
    rw [Phrase.constructs, nodesConstructs, Node.constructs, optionConstructs, bodyConstructs_eq]
    have hbo := (Lists.unmarked hm ihbody).trans ih
    cases hk : t.kind with
    | when | default =>
      rw [hk] at ht
      cases ht
      exact .announce hk rfl hl hbo
    | _ => exact absurd ht (by simp [hk, branchValue?])
  | skipOther ht _ ih => exact .quiet ht ⟨fun _ => rfl, rfl⟩ ih
  | elseIf ht hl _ _ ihbody ih =>
    rw [Phrase.constructs, branchesConstructs, branchConstructs, bodyConstructs_eq, append_assoc]
    exact .announce ht rfl hl (ihbody.trans ih)
  | «else» ht _ ih =>
    rw [Phrase.constructs, optionConstructs, bodyConstructs_eq]
    exact .quiet ht ⟨fun _ => rfl, rfl⟩ ih
  | emptyElse ht => exact .quiet ht ⟨fun _ => rfl, rfl⟩ .refl

/-! ## Templates -/

theorem startsLine_eq_false (hc : k.isContent = false) (hco : k ≠ .colon) :
    k.startsLine = false := by
  cases k <;> first | rfl | exact absurd rfl hco | exact absurd hc nofun

theorem DotsEnd.tidy (h : DotsEnd tokens.reverse)
    (hco : tokens.IsChain fun t u => t.kind = .dot → u.kind ≠ .colon) : Tidy tokens := by
  have hc := isChain_reverse.mp h
  clear h
  induction tokens with
  | nil => exact .nil
  | cons t ts ih =>
    refine IsChain.cons (ih hco.tail hc.tail) fun u hu hd => ?_
    exact startsLine_eq_false (hc.rel_head? hu hd) (hco.rel_head? hu hd)

theorem Finished.eq_nil {validator : Validator} {rest : List Token} {last : Token}
    (h : Finished validator tokens.reverse) (hl : last.kind = .eos)
    (hs : last :: rest <:+ tokens) : rest = [] := by
  obtain ⟨front, rfl⟩ := hs
  obtain ⟨last', others, heq, -, ho⟩ := h.ends
  rw [reverse_append, reverse_cons] at heq
  cases hr : rest.reverse with
  | nil => exact reverse_eq_nil_iff.mp hr
  | cons first between =>
    rw [hr] at heq
    refine absurd hl (ho last ?_)
    rw [← (cons.inj heq).2]
    simp

/-- **Nothing is added, and the order stays.** The constructs of a template's tree are announced by
its tokens in document order, and no construct that is announced is lost if no dot has a colon right
behind it. -/
theorem constructs_of_tokenize {file : Option String} {validator : Validator} {source : String}
    {tokens : List Token} {tree : Block} (hlex : tokenize { file, validator } source = .ok tokens)
    (htree : Block.ofTokens file {} tokens = .ok tree) :
    tree.constructs.Sublist (constructs false tokens) ∧
      ((tokens.IsChain fun t u => t.kind = .dot → u.kind ≠ .colon) →
        tree.constructs = constructs false tokens) := by
  have hfinished := finished_tokenize tokens hlex
  obtain ⟨last, rest, hlast, hreads⟩ := reads_ofTokens htree
  obtain ⟨hsuffix, all, hall, hsub, htidy⟩ := hreads.lists
  have hend : constructs false (last :: rest) = [] := by
    rw [hfinished.eq_nil hlast hsuffix, constructs, constructs, hlast]
    rfl
  rw [hend, List.append_nil] at hall
  obtain rfl : constructs false tokens = all := hall
  rw [Block.constructs, bodyConstructs_eq]
  exact ⟨hsub, fun hcolon => htidy (hfinished.dotsEnd.tidy hcolon)⟩

/-- A tag with code on its line, and a call behind the colon of a bare class. -/
theorem constructs_of_tokenize_call :
    let tokens : List Token := [⟨.tag "p", ⟨1, 1⟩⟩, ⟨.interpolatedCode "x" true true, ⟨1, 3⟩⟩,
      ⟨.indent 2, ⟨2, 1⟩⟩, ⟨.class "c", ⟨2, 3⟩⟩, ⟨.colon, ⟨2, 5⟩⟩, ⟨.call "m" none, ⟨2, 7⟩⟩,
      ⟨.outdent, ⟨2, 9⟩⟩, ⟨.eos, ⟨2, 9⟩⟩]
    tokenize { validator := fun _ => none } "p #\x7bx\x7d\n  .c: +m" = .ok tokens ∧
      ∃ tree, Block.ofTokens none {} tokens = .ok tree ∧
        tree.constructs = constructs false tokens := by
  intro tokens
  have hlex : tokenize { validator := fun _ => none } "p #\x7bx\x7d\n  .c: +m" = .ok tokens := by
    decide +kernel
  obtain ⟨tree, htree⟩ : ∃ tree, Block.ofTokens none {} tokens = .ok tree := ⟨_, rfl⟩
  exact ⟨hlex, tree, htree, (constructs_of_tokenize hlex htree).2 (by simp [tokens])⟩

/-- Behind the dot of `p.: b` the tag `b` is lost. -/
theorem constructs_of_tokenize_lost :
    let tokens : List Token := [⟨.tag "p", ⟨1, 1⟩⟩, ⟨.dot, ⟨1, 2⟩⟩, ⟨.colon, ⟨1, 3⟩⟩,
      ⟨.tag "b", ⟨1, 5⟩⟩, ⟨.eos, ⟨1, 6⟩⟩]
    tokenize { validator := fun _ => none } "p.: b" = .ok tokens ∧
      ∃ tree, Block.ofTokens none {} tokens = .ok tree ∧
        constructs false tokens = [⟨.tag "p", ⟨1, 1⟩⟩, ⟨.tag "b", ⟨1, 5⟩⟩] ∧
        tree.constructs = [⟨.tag "p", ⟨1, 1⟩⟩] := by
  intro tokens
  exact ⟨by decide +kernel, _, rfl, rfl, rfl⟩

end PugTemplate
