import PugTemplate.Compile
import PugTemplate.Proofs.Node.Readers
import PugTemplate.Proofs.Node.Unlocated
import PugTemplate.Proofs.Token.Outline
/-!
# Trees of outlines

The tree of an outline has a tag for each entry: with its classes and its id as attributes, its text
first, and the tags of what stands below it. Parsing a text that shows the outline gives this tree
back, but for the places of its nodes.
-/

namespace PugTemplate

open List

/-! ## Trees -/

/-- An attribute that a class or an id stands for. -/
def quoted (name value : String) : Attribute :=
  { name, value := .expression ("'" ++ value ++ "'"), escape := false, location := {} }

namespace Entry

def attributes (e : Entry) : List Attribute :=
  e.classes.map (quoted "class") ++ (e.id.map (quoted "id")).toList

def textNodes (e : Entry) : List Node := (e.text.map fun t => .text t false {}).toList

/-- The tag of an entry, with content after its text. -/
def node (e : Entry) (content : List Node) : Node :=
  .tag { label := .name e.name, attributes := e.attributes, location := {} }
    { nodes := e.textNodes ++ content, location := {} }

end Entry

def Outline.nodes : Outline → List Node
  | .empty => []
  | .entry head _ below next => head.node below.nodes :: next.nodes

/-! ## Tags -/

namespace TreeSetting

open TokenReader

variable (file : Option String) (n : Nat) {ts rest : TokenStream} {t : Token}

/-- The setting at a level of the grammar, without hooks and outside of mixins. -/
def level (file : Option String) (n : Nat) : TreeSetting := { file, lower := readers file {} n }

def endsTag : TokenKind → Bool
  | .newline => true
  | .indent _ => true
  | .outdent => true
  | .eos => true
  | _ => false

/-- A token that ends the attributes of a tag. -/
def endsMarks : TokenKind → Bool
  | .text _ => true
  | kind => endsTag kind

theorem endsMarks_of_endsTag {kind : TokenKind} (h : endsTag kind) :
    endsMarks kind := by
  cases kind <;> first | rfl | exact h

theorem run_tagAttributes_end (ht : endsMarks t.kind) (k : Nat) (names : List String)
    (draft : TagDraft) :
    ((level file n).tagAttributes (k + 1) names draft).run (t :: rest) =
      .ok (draft, t :: rest) := by
  obtain ⟨kind, at_⟩ := t
  cases kind with
  | newline | indent | outdent | eos | text => rfl
  | _ => simp [endsMarks, endsTag] at ht

theorem run_tagLine_end (ht : endsTag t.kind) (draft : TagDraft) :
    ((level file n).tagLine true draft).run (t :: rest) = .ok (draft, t :: rest) := by
  obtain ⟨kind, at_⟩ := t
  cases kind with
  | newline | indent | outdent | eos => rfl
  | _ => simp [endsTag] at ht

theorem run_tagLine_text (ht : endsTag t.kind) (s : String) (at_ : Position) (draft : TagDraft) :
    ((level file n).tagLine true draft).run (⟨.text s, at_⟩ :: t :: rest) =
      .ok (addToBody draft [(level file n).textNode s at_], t :: rest) := by
  obtain ⟨kind, at_⟩ := t
  cases kind with
  | newline | indent | outdent | eos => rfl
  | _ => simp [endsTag] at ht

variable {front newlines after texts marks : TokenStream} {body : Option Block}
  {last : List TokenKind} {w : Nat}

theorem run_tagAttributes (ht : endsMarks t.kind) (id : Option String)
    {classes : List String}
    (hf : front.map Token.kind = classes.map .class ++ (id.map .id).toList) {k : Nat}
    (hk : front.length < k) (draft : TagDraft) :
    ∃ new, ((level file n).tagAttributes k [] draft).run (front ++ t :: rest) =
        .ok ({ draft with attributes := draft.attributes ++ new }, t :: rest) ∧
      new.map Attribute.unlocated =
        classes.map (quoted "class") ++ (id.map (quoted "id")).toList := by
  induction classes generalizing front k draft with
  | nil =>
    cases id with
    | none =>
      obtain rfl : front = [] := map_eq_nil_iff.mp hf
      obtain ⟨k, rfl⟩ := Nat.exists_eq_add_of_lt hk
      refine ⟨[], ?_, rfl⟩
      rw [append_nil]
      exact run_tagAttributes_end file n ht _ [] draft
    | some name =>
      obtain ⟨⟨kind, at_⟩, tail, rfl, hki, hta⟩ := map_eq_cons_iff.mp hf
      obtain rfl : kind = .id name := hki
      obtain rfl : tail = [] := map_eq_nil_iff.mp hta
      match k, hk with
      | k + 2, _ =>
        refine ⟨[(level file n).shorthand "id" name at_], ?_, rfl⟩
        exact run_tagAttributes_end file n ht k ["id"] _
  | cons name classes ih =>
    obtain ⟨⟨kind, at_⟩, tail, rfl, hki, hta⟩ := map_eq_cons_iff.mp hf
    obtain rfl : kind = .class name := hki
    cases k with
    | zero => exact absurd hk (Nat.not_lt_zero _)
    | succ k =>
      have hk' : tail.length < k := Nat.lt_of_succ_lt_succ hk
      obtain ⟨new, hr, hn⟩ := ih hta hk' { draft with
        attributes := draft.attributes ++ [(level file n).shorthand "class" name at_] }
      refine ⟨(level file n).shorthand "class" name at_ :: new, ?_, ?_⟩
      · refine hr.trans ?_
        simp
      · rw [map_cons, hn]
        rfl

theorem run_tagLine (ht : endsTag t.kind) {text : Option String}
    (hf : front.map Token.kind = (text.map .text).toList) (draft : TagDraft) :
    ∃ nodes, ((level file n).tagLine true draft).run (front ++ t :: rest) =
        .ok (addToBody draft nodes, t :: rest) ∧
      nodes.map Node.unlocated = (text.map fun s => .text s false {}).toList := by
  cases text with
  | none =>
    obtain rfl : front = [] := map_eq_nil_iff.mp hf
    refine ⟨[], ?_, rfl⟩
    rw [nil_append, run_tagLine_end file n ht, addToBody, append_nil]
  | some s =>
    obtain ⟨⟨kind, at_⟩, tail, rfl, hk, hta⟩ := map_eq_cons_iff.mp hf
    obtain rfl : kind = .text s := hk
    obtain rfl : tail = [] := map_eq_nil_iff.mp hta
    exact ⟨_, run_tagLine_text file n ht s at_ draft, by simp [textNode, Node.unlocated]⟩

theorem run_skipNewlines (hn : ∀ u ∈ newlines, u.kind = .newline) (ht : t.kind ≠ .newline)
    {k : Nat} (hk : newlines.length < k) :
    ((level file n).skipNewlines k).run (newlines ++ t :: rest) = .ok ((), t :: rest) := by
  induction newlines generalizing k with
  | nil =>
    obtain ⟨k, rfl⟩ := Nat.exists_eq_add_of_lt hk
    have hna : t.name ≠ "newline" := fun h => ht ((Token.name_eq_iff rfl).mp h)
    exact run_bind.mpr ⟨none, t :: rest, run_accept_none hna, rfl⟩
  | cons u newlines ih =>
    obtain ⟨hu, hn⟩ := forall_mem_cons.mp hn
    cases k with
    | zero => exact absurd hk (Nat.not_lt_zero _)
    | succ k =>
      have hna : u.name = "newline" := (Token.name_eq_iff rfl).mpr hu
      exact run_bind.mpr ⟨some u, newlines ++ t :: rest, run_accept_some hna,
        ih hn (Nat.lt_of_succ_lt_succ hk)⟩

/-- **A tag behind its name**: attributes and text, then the ends of lines, then a block if there is
one. -/
theorem run_tagDraft (e : Entry)
    (hm : marks.map Token.kind = e.classes.map .class ++ (e.id.map .id).toList)
    (hte : texts.map Token.kind = (e.text.map .text).toList)
    (hn : ∀ u ∈ newlines, u.kind = .newline) (ht : t.kind ≠ .newline)
    (hen : newlines = [] → endsTag t.kind)
    (hb : (level file n).block?.run (t :: rest) = .ok (body, after)) (location : Location) :
    ∃ draft, ((level file n).tagDraft true location).run
        (marks ++ (texts ++ (newlines ++ t :: rest))) = .ok (draft, after) ∧
      draft.selfClosing = false ∧ draft.textOnly = false ∧ draft.spreads = [] ∧
      draft.attributes.map Attribute.unlocated = e.attributes ∧
      draft.body.nodes.map Node.unlocated =
        e.textNodes ++ (body.elim [] (·.nodes)).map Node.unlocated := by
  -- The tokens at which the text and the attributes end.
  obtain ⟨u, more, hu, hli⟩ : ∃ u more, endsTag u.kind ∧ newlines ++ t :: rest = u :: more := by
    cases newlines with
    | nil => exact ⟨t, rest, hen rfl, rfl⟩
    | cons u newlines => exact ⟨u, _, by rw [hn u (mem_cons_self ..)]; rfl, rfl⟩
  obtain ⟨v, others, hv, hf⟩ : ∃ v others, endsMarks v.kind ∧
      texts ++ (newlines ++ t :: rest) = v :: others := by
    cases texts with
    | nil => exact ⟨u, more, endsMarks_of_endsTag hu, hli⟩
    | cons v texts =>
      refine ⟨v, _, ?_, rfl⟩
      cases htex : e.text with
      | none => simp [htex] at hte
      | some s =>
        rw [htex] at hte
        rw [(cons.inj hte).1]
        rfl
  let start : TagDraft := { body := { location }, location }
  have hl : marks.length < (marks ++ v :: others).length + 1 := by
    rw [length_append]
    omega
  obtain ⟨new, ha, hne⟩ := run_tagAttributes file n hv e.id hm hl start
  let draft : TagDraft := { start with attributes := start.attributes ++ new }
  obtain ⟨nodes, htex, hno⟩ := run_tagLine file n hu hte draft
  have hd : ((level file n).accept "dot").run (v :: others) = .ok (none, v :: others) := by
    refine run_accept_none fun hna => ?_
    have hk : v.kind = .dot := (Token.name_eq_iff rfl).mp hna
    rw [hk] at hv
    exact absurd hv (by decide)
  have hs : ((level file n).skipNewlines ((newlines ++ t :: rest).length + 1)).run
      (newlines ++ t :: rest) = .ok ((), t :: rest) := by
    refine run_skipNewlines file n hn ht ?_
    rw [length_append]
    omega
  rw [← hli] at htex
  rw [← hf] at ha hd
  have hr : ((level file n).tagDraft true location).run
      (marks ++ (texts ++ (newlines ++ t :: rest))) =
        .ok (addToBody (addToBody draft nodes) (body.elim [] (·.nodes)), after) := by
    simp only [tagDraft, run_bind, run_budget]
    refine ⟨_, _, ⟨rfl, rfl⟩, draft, _, ha, none, _, hd, ?_⟩
    refine ⟨_, _, htex, _, _, ⟨rfl, rfl⟩, _, _, hs, ?_⟩
    refine run_bind.mpr ⟨body, after, hb, ?_⟩
    cases body with
    | none => exact congrArg (fun d => Except.ok (d, after)) (by simp [addToBody])
    | some body => rfl
  refine ⟨_, hr, rfl, rfl, rfl, hne, ?_⟩
  show map Node.unlocated ((([] ++ nodes) ++ body.elim [] (·.nodes))) = _
  rw [nil_append, map_append, hno]
  rfl

theorem run_tag (e : Entry)
    (hm : marks.map Token.kind = e.classes.map .class ++ (e.id.map .id).toList)
    (htex : texts.map Token.kind = (e.text.map .text).toList)
    (hn : ∀ u ∈ newlines, u.kind = .newline) (ht : t.kind ≠ .newline)
    (hen : newlines = [] → endsTag t.kind)
    (hb : (level file n).block?.run (t :: rest) = .ok (body, after)) (at_ : Position) :
    ∃ head content, ((level file n).tag (.name e.name) at_).run
        (marks ++ (texts ++ (newlines ++ t :: rest))) = .ok (.tag head content, after) ∧
      (Node.tag head content).unlocated = e.node ((body.elim [] (·.nodes)).map Node.unlocated) := by
  obtain ⟨draft, hr, hc, hte, hs, ha, hbo⟩ :=
    run_tagDraft file n e hm htex hn ht hen hb ((level file n).location at_)
  refine ⟨_, _, run_bind.mpr ⟨draft, after, hr, rfl⟩, ?_⟩
  simp only [Node.unlocated, TagHead.unlocated, unlocatedBlock_eq, hc, hte, hs, ha, hbo]
  rfl

/-! ## Blocks -/

variable {stop : Token} {k : Nat}

theorem run_nodesUntil_stop (acc : List Node) :
    ((level file n).nodesUntil stop.kind (k + 1) acc).run (stop :: rest) =
      .ok (acc, stop :: rest) := by
  show (if _ then _ else _ : TokenReader (List Node)).run _ = _
  rw [if_pos (by simp)]
  rfl

theorem run_nodesUntil_tag {name : String} (hs : stop.kind ≠ .tag name) {at_ : Position}
    {head : TagHead} {body : Block}
    (h : ((level file n).tag (.name name) at_).run rest = .ok (.tag head body, after))
    (acc : List Node) :
    ((level file (n + 1)).nodesUntil stop.kind (k + 1) acc).run (⟨.tag name, at_⟩ :: rest) =
      ((level file (n + 1)).nodesUntil stop.kind k (acc ++ [.tag head body])).run after := by
  have hn : ¬(TokenKind.tag name == stop.kind) := by simpa using Ne.symm hs
  show (if _ then _ else _ : TokenReader (List Node)).run _ = _
  rw [if_neg hn]
  have hex : (level file (n + 1)).expression.run (⟨.tag name, at_⟩ :: rest) =
      .ok (.tag head body, after) := h
  rw [StateT.run_bind, hex]
  rfl

theorem run_block?_none (ht : ∀ w, t.kind ≠ .indent w) :
    (level file n).block?.run (t :: rest) = .ok (none, t :: rest) := by
  obtain ⟨kind, at_⟩ := t
  cases kind with
  | indent w => exact absurd rfl (ht w)
  | _ => rfl

theorem run_block?_some (w : Nat) (at_ : Position) (hs : stop.kind = .outdent)
    {nodes : List Node} (h : ((level file n).nodesUntil stop.kind (rest.length + 1) []).run rest =
      .ok (nodes, stop :: ts)) :
    (level file (n + 1)).block?.run (⟨.indent w, at_⟩ :: rest) =
      .ok (some { nodes, location := (level file n).location at_ }, ts) := by
  rw [hs] at h
  have hb : (level file n).blockStep.run (⟨.indent w, at_⟩ :: rest) =
      .ok ({ nodes, location := (level file n).location at_ }, ts) := by
    simp only [blockStep, run_bind, run_budget]
    refine ⟨_, _, run_expect rfl, _, _, ⟨rfl, rfl⟩, _, _, h, stop, ts, ?_, rfl⟩
    exact run_expect ((Token.name_eq_iff rfl).mpr hs)
  exact run_map hb

theorem split_entry (e : Entry) (h : front.map Token.kind = e.kinds) :
    ∃ at_ marks texts, front = ⟨.tag e.name, at_⟩ :: (marks ++ texts) ∧
      marks.map Token.kind = e.classes.map .class ++ (e.id.map .id).toList ∧
      texts.map Token.kind = (e.text.map .text).toList := by
  obtain ⟨named, texts, rfl, hn, ht⟩ := map_eq_append_iff.mp h
  obtain ⟨⟨kind, at_⟩, marks, rfl, hk, hm⟩ := map_eq_cons_iff.mp hn
  obtain rfl : kind = .tag e.name := hk
  exact ⟨at_, marks, texts, rfl, hm, ht⟩

theorem head_kinds {o : Outline} (ho : o.isEmpty = false)
    (h : front.map Token.kind = o.kinds last w) :
    ∃ t tail, front = t :: tail ∧ ∃ name, t.kind = .tag name := by
  cases o with
  | empty => exact absurd ho (by simp)
  | entry head step below next =>
    obtain ⟨t, tail, rfl, ht, -⟩ := map_eq_cons_iff.mp h
    exact ⟨t, tail, rfl, head.name, ht⟩

theorem run_tag_leaf (e : Entry) {breaks : TokenStream}
    (hm : marks.map Token.kind = e.classes.map .class ++ (e.id.map .id).toList)
    (hte : texts.map Token.kind = (e.text.map .text).toList)
    (hb : Idle (breaks.map Token.kind)) (hn : breaks.length ≤ n)
    (ht : t.kind ≠ .newline ∧ ∀ w, t.kind ≠ .indent w)
    (hen : breaks = [] → endsTag t.kind) (at_ : Position) :
    ∃ head content, ((level file n).tag (.name e.name) at_).run
        (marks ++ (texts ++ (breaks ++ t :: rest))) = .ok (.tag head content, t :: rest) ∧
      (Node.tag head content).unlocated = e.node [] := by
  have hnon : (level file n).block?.run (t :: rest) = .ok (none, t :: rest) :=
    run_block?_none file n ht.2
  have hni : ∀ u ∈ ([] : TokenStream), u.kind = .newline := by simp
  generalize hk : breaks.map Token.kind = kinds at hb
  cases hb with
  | nil =>
    obtain rfl : breaks = [] := map_eq_nil_iff.mp hk
    exact run_tag file n e hm hte hni ht.1 hen hnon at_
  | newline =>
    obtain ⟨u, nothing, rfl, hu, hno⟩ := map_eq_cons_iff.mp hk
    obtain rfl : nothing = [] := map_eq_nil_iff.mp hno
    have hbr : ∀ v ∈ [u], v.kind = .newline := by simpa using hu
    exact run_tag file n e hm hte hbr ht.1 (by simp) hnon at_
  | block w =>
    obtain ⟨⟨kind, start⟩, closing, rfl, hki, hc⟩ := map_eq_cons_iff.mp hk
    obtain ⟨stop, nothing, rfl, hs, hno⟩ := map_eq_cons_iff.mp hc
    obtain rfl : nothing = [] := map_eq_nil_iff.mp hno
    obtain rfl : kind = .indent w := hki
    obtain ⟨m, rfl⟩ : ∃ m, n = m + 1 := Nat.exists_eq_add_one.mpr (Nat.zero_lt_of_lt hn)
    have hbl := @run_block?_some file m (t :: rest) _ stop w start hs []
      (run_nodesUntil_stop file m [])
    exact run_tag file (m + 1) e hm hte hni (by simp) (by simp [endsTag]) hbl at_

/-- **The nodes of an outline.** The tokens of an outline are read as its tree, up to the end of the
block that they stand in. There are as many levels as tokens. -/
theorem run_nodesUntil (o : Outline) (hl : Idle last) (hf : front.map Token.kind = o.kinds last w)
    (hs : stop.kind = .outdent ∨ stop.kind = .eos) (hn : front.length ≤ n)
    (hk : front.length < k) (acc : List Node) :
    ∃ nodes, ((level file n).nodesUntil stop.kind k acc).run (front ++ stop :: rest) =
        .ok (acc ++ nodes, stop :: rest) ∧
      nodes.map Node.unlocated = o.nodes := by
  induction o generalizing w n last front stop k rest acc with
  | empty =>
    obtain rfl : front = [] := map_eq_nil_iff.mp hf
    obtain ⟨k, rfl⟩ := Nat.exists_eq_add_one.mpr (Nat.zero_lt_of_lt hk)
    exact ⟨[], by rw [append_nil]; exact run_nodesUntil_stop file n acc, rfl⟩
  | entry head step below next ihbelow ihnext =>
    obtain ⟨own, others, rfl, how, ho⟩ := map_eq_append_iff.mp hf
    obtain ⟨named, inside, rfl, hna, hi⟩ := map_eq_append_iff.mp how
    obtain ⟨at_, marks, texts, rfl, hm, hte⟩ := split_entry head hna
    simp only [length_append, length_cons] at hn hk
    obtain ⟨n, rfl⟩ : ∃ m, n = m + 1 := ⟨n - 1, by omega⟩
    obtain ⟨k, rfl⟩ : ∃ m, k = m + 1 := ⟨k - 1, by omega⟩
    have hre : ∃ tag content, ((level file n).tag (.name head.name) at_).run
          (marks ++ (texts ++ (inside ++ (others ++ stop :: rest)))) =
          .ok (.tag tag content, others ++ stop :: rest) ∧
        (Node.tag tag content).unlocated = head.node below.nodes := by
      cases hb : below.isEmpty with
      | true =>
        obtain rfl := Outline.eq_empty hb
        cases hnex : next.isEmpty with
        | true =>
          obtain rfl := Outline.eq_empty hnex
          obtain rfl : others = [] := map_eq_nil_iff.mp ho
          exact run_tag_leaf file n head hm hte (hi ▸ hl) (by omega)
            (by rcases hs with h | h <;> simp [h])
            (by rcases hs with h | h <;> simp [h, endsTag]) at_
        | false =>
          obtain ⟨t, tail, rfl, name, ht⟩ := head_kinds hnex ho
          rw [hnex] at hi
          refine run_tag_leaf file n head hm hte (hi ▸ .newline) (by omega) (by simp [ht]) ?_ at_
          rintro rfl
          cases hi
      | false =>
        simp only [hb, Bool.false_eq_true, if_false] at hi
        obtain ⟨opened, closing, rfl, hop, hc⟩ := map_eq_append_iff.mp hi
        obtain ⟨⟨kind, start⟩, content, rfl, hki, hco⟩ := map_eq_cons_iff.mp hop
        obtain ⟨close, nothing, rfl, hcl, hnot⟩ := map_eq_cons_iff.mp hc
        obtain rfl : nothing = [] := map_eq_nil_iff.mp hnot
        obtain rfl : kind = .indent (Outline.inner w step) := hki
        simp only [length_append, length_cons] at hn
        obtain ⟨m, rfl⟩ : ∃ m, n = m + 1 := ⟨n - 1, by omega⟩
        -- The block is two levels further down: one for the tag, and one for the block itself.
        let more := others ++ stop :: rest
        have hfu : content.length < (content ++ close :: more).length + 1 := by
          rw [length_append]
          omega
        have hid : Idle (if next.isEmpty then last else []) := by
          split
          · exact hl
          · exact .nil
        obtain ⟨nodes, hno, htr⟩ : ∃ nodes, ((level file m).nodesUntil close.kind
              ((content ++ close :: more).length + 1) []).run (content ++ close :: more) =
              .ok (nodes, close :: more) ∧
            nodes.map Node.unlocated = below.nodes :=
          ihbelow m hid hco (.inl hcl) (by omega) hfu []
        have hbl := run_block?_some file m (Outline.inner w step) start hcl hno
        have hni : ∀ u ∈ ([] : TokenStream), u.kind = .newline := by simp
        obtain ⟨tag, body, hr, hnod⟩ := run_tag file (m + 1) head hm hte hni (by simp)
          (by simp [endsTag]) hbl at_
        refine ⟨tag, body, ?_, ?_⟩
        · rw [append_assoc (_ :: content)]
          exact hr
        · rw [hnod]
          exact congrArg head.node htr
    obtain ⟨tag, content, hr, hnod⟩ := hre
    have hne : stop.kind ≠ .tag head.name := by
      rcases hs with h | h <;> simp [h]
    obtain ⟨nodes, hno, htr⟩ := ihnext (n + 1) hl ho hs (by omega)
      (show others.length < k by omega) (acc ++ [.tag tag content])
    refine ⟨.tag tag content :: nodes, ?_, ?_⟩
    · simp only [cons_append, append_assoc]
      rw [run_nodesUntil_tag file n hne hr, hno, append_assoc]
      rfl
    · rw [map_cons, hnod, htr]
      rfl

end TreeSetting

/-! ## Templates -/

variable {last : List TokenKind} {tokens : TokenStream} {o : Outline}

theorem ofTokens_outline (o : Outline) (file : Option String) (hl : Idle last)
    (ht : tokens.map Token.kind = o.kinds last 0 ++ [.eos]) :
    ∃ tree, Block.ofTokens file {} tokens = .ok tree ∧
      tree.unlocated = { nodes := o.nodes, location := {} } := by
  obtain ⟨front, ends, rfl, hf, hen⟩ := map_eq_append_iff.mp ht
  obtain ⟨stop, nothing, rfl, hs, hn⟩ := map_eq_cons_iff.mp hen
  obtain rfl : nothing = [] := map_eq_nil_iff.mp hn
  let tokens := front ++ [stop]
  have hle : tokens.length = front.length + 1 := by simp [tokens]
  obtain ⟨nodes, hr, hno⟩ : ∃ nodes, ((TreeSetting.level file (tokens.length + 1)).nodesUntil
        stop.kind (tokens.length + 1) []).run tokens = .ok (nodes, [stop]) ∧
      nodes.map Node.unlocated = o.nodes :=
    TreeSetting.run_nodesUntil file (tokens.length + 1) o hl hf (.inr hs) (by omega) (by omega) []
  rw [hs] at hr
  have hre : Block.read file {} tokens = .ok ({ nodes, location := { file } }, [stop]) := by
    simp only [Block.read, TokenReader.run_bind, TreeSetting.run_budget]
    exact ⟨_, _, ⟨rfl, rfl⟩, nodes, [stop], hr, rfl⟩
  refine ⟨{ nodes, location := { file } }, ?_, ?_⟩
  · exact Block.ofTokens_eq_ok_iff.mpr ⟨_, hre⟩
  · rw [Block.unlocated, unlocatedBlock_eq, hno]

theorem parse_of_tokenize {file : Option String} {validator : Validator} {source : String}
    (hl : Idle last) (ht : tokenize { file, validator } source = .ok tokens)
    (hk : tokens.map Token.kind = o.kinds last 0 ++ [.eos]) (parser : Script.Parser)
    (evaluator : Evaluator) :
    ∃ tree, ({ parser, validator, evaluator } : Compiler).parse file source = .ok tree ∧
      tree.unlocated = { nodes := o.nodes, location := {} } := by
  obtain ⟨tree, htr, hn⟩ := ofTokens_outline o file hl hk
  refine ⟨tree, ?_, hn⟩
  show (tokenize { file, validator } source >>= Block.ofTokens file {}) = _
  rw [ht]
  exact htr

/-- **Outline round trip.** A text that shows an outline is parsed without fail, and its tree is
that of the outline, but for the places of its nodes. -/
theorem parse_outline (o : Outline) (lines : List (List Char)) (h : o.Shows lines)
    (parser : Script.Parser) (validator : Validator) (evaluator : Evaluator)
    (file : Option String) :
    ∃ tree, ({ parser, validator, evaluator } : Compiler).parse file (joinLines lines) = .ok tree ∧
      tree.unlocated = { nodes := o.nodes, location := {} } := by
  obtain ⟨tokens, last, htokens, hlast, hkinds⟩ := h.tokenize file validator
  exact parse_of_tokenize hlast htokens hkinds parser evaluator

/-- A list of two items, and a paragraph after it. -/
def sampleOutline : Outline :=
  .entry { name := "ul", classes := ["menu", "-x"], id := some "top" } 2
    (.entry { name := "li", text := some "one: [1]" } 0 .empty
      (.entry { name := "li", classes := ["last"], text := some " two" } 0 .empty .empty))
    (.entry { name := "p" } 0 .empty .empty)

theorem parse_outline_list :
    ∃ tree, ({ parser := fun _ => none } : Compiler).parse none
        "ul.menu.-x#top\n\n   li one: [1]\n \t\n   li.last  two\np\n" = .ok tree ∧
      tree.unlocated = { nodes := sampleOutline.nodes, location := {} } := by
  let lines := ["ul.menu.-x#top", "", "   li one: [1]", " \t", "   li.last  two", "p", ""]
  exact parse_outline sampleOutline (lines.map String.toList) ⟨by decide, by decide, by decide⟩
    _ _ _ none

end PugTemplate
