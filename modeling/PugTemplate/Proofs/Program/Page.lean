import PugTemplate.Program.Assemble
import PugTemplate.Proofs.Program.Actions
import PugTemplate.Proofs.Program.Statements
import PugTemplate.Proofs.Text.Literal
/-!
# Pages of static trees

A tree of texts, comments, document types and plain tags has nothing left to compute: its program is
one literal. The literal is compared here with the page that the tree stands for, which is read off
the tree directly. All that a page depends on besides the tree is the declaration in force, whether
one has been placed, and whether a tag has been opened.
-/

namespace PugTemplate

open Markup Bool String
namespace Program

/-! ## Pages -/

/-- What is known at a place of a page. -/
structure PageState where
  /-- The declaration in force. -/
  declaration : Option String := none
  /-- A document type has been placed. -/
  declared : Bool := false
  /-- A tag has been opened. -/
  opened : Bool := false
  deriving DecidableEq, Repr

namespace PageState

/-- The page is written in the short form of the newest document type. -/
def terse (p : PageState) : Bool :=
  p.declaration.any fun d => Markup.lower d == "<!doctype html>"

def xml (p : PageState) : Bool := p.declaration.any fun d => d.startsWith "<?xml"

/-- The start of a page for which a document type may be chosen. -/
def start (doctype : Option String) : PageState := { declaration := doctype.map Markup.doctype }

/-- The page after a document type: a name puts a declaration in force, and without one a page that
has none becomes `html`. -/
def declare (p : PageState) (name : String) : PageState :=
  { p with
    declaration :=
      if name.isEmpty && p.declaration.isSome then p.declaration
      else some (Markup.doctype (if name.isEmpty then "html" else name))
    declared := true }

/-- The document type is placed before the first tag of a page that has not placed one, if that tag
is `html`. -/
def leads (p : PageState) (name : String) : Bool := !p.opened && !p.declared && name == "html"

def openTag (p : PageState) (name : String) : PageState :=
  { p with declared := p.declared || p.leads name, opened := true }

end PageState

def plainName (head : TagHead) : String := (knownName? head.label).getD ""

/-- A tag, its content, and what is known where it is opened. -/
structure PlacedTag where
  head : TagHead
  content : List Node
  place : PageState

namespace PlacedTag

/-- The tag ends itself: by a slash of its own, or as an element that never has content. -/
def isClosed (t : PlacedTag) : Bool :=
  t.head.selfClosing || (!t.place.xml && Markup.isVoid (plainName t.head))

/-- The tag ends itself and has content that would be lost. -/
def isOverfull (t : PlacedTag) : Bool := t.isClosed && t.content.any fun node => !isBlankNode node

def closing (t : PlacedTag) : String := if t.place.terse && !t.head.selfClosing then ">" else "/>"

/-- What is wrong with a tag that is overfull. -/
def diagnostic (t : PlacedTag) : Diagnostic :=
  { cause := .selfClosingContent (plainName t.head), position := t.head.location.position
    file := t.head.location.file }

end PlacedTag

/-- The markup of a part of a page, the tags in it in their order, and what is known behind it. -/
structure Page where
  markup : String := ""
  tags : List PlacedTag := []
  after : PageState

def Page.append (first second : Page) : Page :=
  ⟨first.markup ++ second.markup, first.tags ++ second.tags, second.after⟩

mutual

/-- The part of a page that a node stands for. -/
def pageNode (p : PageState) : Node → Page
  | .block body => pageBlock p body
  | .namedBlock _ _ body _ => pageBlock p body
  | .tag head body =>
    let name := plainName head
    let declaration := if p.leads name then p.declaration.getD "" else ""
    let tag : PlacedTag := ⟨head, body.nodes, p.openTag name⟩
    if tag.isClosed then ⟨declaration ++ "<" ++ name ++ tag.closing, [tag], tag.place⟩
    else
      let inner := pageBlock tag.place body
      ⟨declaration ++ "<" ++ name ++ ">" ++ inner.markup ++ "</" ++ name ++ ">", tag :: inner.tags,
        inner.after⟩
  | .text text _ _ => ⟨text, [], p⟩
  | .comment text buffer _ => ⟨if buffer then "<!--" ++ text ++ "-->" else "", [], p⟩
  | .blockComment text body buffer _ =>
    if buffer then
      let inner := pageBlock p body
      ⟨"<!--" ++ text ++ inner.markup ++ "-->", inner.tags, inner.after⟩
    else ⟨"", [], p⟩
  | .doctype name _ => ⟨(p.declare name).declaration.getD "", [], p.declare name⟩
  | _ => ⟨"", [], p⟩

/-- The part of a page that a block stands for. -/
def pageBlock (p : PageState) : BlockOf Node → Page
  | ⟨nodes, _⟩ => pageNodes p nodes

/-- The part of a page that nodes stand for, each with what is known behind the one before it. -/
def pageNodes (p : PageState) : List Node → Page
  | [] => ⟨"", [], p⟩
  | node :: rest => (pageNode p node).append (pageNodes (pageNode p node).after rest)

end

def isPlainTag (head : TagHead) : Bool :=
  (knownName? head.label).isSome && head.attributes.isEmpty && head.spreads.isEmpty

mutual

/-- A node that has nothing to compute in it. -/
def isStatic : Node → Bool
  | .block body => isStaticBlock body
  | .namedBlock _ _ body _ => isStaticBlock body
  | .tag head body => isPlainTag head && isStaticBlock body
  | .text _ _ _ => true
  | .comment _ _ _ => true
  | .blockComment _ body _ _ => isStaticBlock body
  | .doctype _ _ => true
  | _ => false

/-- A block that has nothing to compute in it. -/
def isStaticBlock : BlockOf Node → Bool
  | ⟨nodes, _⟩ => areStatic nodes

/-- Nodes that have nothing to compute in them. -/
def areStatic : List Node → Bool
  | [] => true
  | node :: rest => isStatic node && areStatic rest

end

/-! ## The writer against the page -/

/-- The writer's state shows what is known at a place of a page. -/
structure Shows (s : WriterState) (p : PageState) : Prop where
  doctype : s.doctype = p.declaration
  terse : s.terse = p.terse
  xml : s.xml = p.xml
  declared : s.doctypeWritten = p.declared
  opened : s.tagWritten = p.opened
  helpers : s.helpers = []

/-- An action that renders a part of a page: it refuses the first tag that is overfull, and if there
is none, it emits texts that make up the markup. -/
def Renders (x : Emit Unit) (p : PageState) (page : Page) : Prop :=
  ∀ s, Shows s p →
    match page.tags.find? PlacedTag.isOverfull with
    | some tag => x s = .error tag.diagnostic
    | none => ∃ texts t, x s = .ok ((), texts.map Write.text, t) ∧ String.join texts = page.markup ∧
        Shows t page.after

namespace Renders

variable {x y : Emit Unit} {p : PageState} {page first second : Page}

theorem silent {q : PageState} (h : ∀ s, Shows s p → ∃ t, x s = .ok ((), [], t) ∧ Shows t q) :
    Renders x p ⟨"", [], q⟩ := by
  intro s hs
  obtain ⟨t, hx, ht⟩ := h s hs
  exact ⟨[], t, hx, by simp, ht⟩

theorem nothing : Renders (pure ()) p ⟨"", [], p⟩ := silent fun s hs => ⟨s, rfl, hs⟩

theorem text (c : String) : Renders (Emit.text c) p ⟨c, [], p⟩ := by
  intro s hs
  exact ⟨[c], s, rfl, by simp, hs⟩

theorem bind (hx : Renders x p first) (hy : Renders y first.after second) :
    Renders (x >>= fun _ => y) p (first.append second) := by
  intro s hs
  have hxs := hx s hs
  simp only [Page.append, List.find?_append]
  -- the first part is rendered first, so a tag that it refuses comes before all others
  cases hf : first.tags.find? PlacedTag.isOverfull with
  | some tag =>
    rw [hf] at hxs
    exact Emit.bind_run_error hxs
  | none =>
    rw [hf] at hxs
    obtain ⟨texts, t, hr, hj, ht⟩ := hxs
    have hyt := hy t ht
    cases hse : second.tags.find? PlacedTag.isOverfull with
    | some tag =>
      rw [hse] at hyt
      rw [Emit.bind_run_ok hr, show y t = .error tag.diagnostic from hyt]
      rfl
    | none =>
      rw [hse] at hyt
      obtain ⟨more, u, hr', hj', hu⟩ := hyt
      refine ⟨texts ++ more, u, ?_, ?_, hu⟩
      · rw [Emit.bind_run_ok hr, hr']
        simp [Except.map]
      · rw [join_append, hj, hj']

theorem congr {page' : Page} (hx : Renders x p page) (h : page = page') : Renders x p page' :=
  h ▸ hx

theorem cons_tag {tag : PlacedTag} (ht : tag.isOverfull = false) (hx : Renders x p page) :
    Renders x p ⟨page.markup, tag :: page.tags, page.after⟩ := by
  intro s hs
  simp only [List.find?_cons, ht]
  exact hx s hs

theorem state {f : WriterState → Emit Unit} (h : ∀ s, Shows s p → Renders (f s) p page) :
    Renders (Emit.state >>= f) p page := by
  intro s hs
  rw [Emit.state_bind]
  exact h s hs s hs

end Renders

/-! ## Document types -/

theorem Shows.choose {s : WriterState} {p : PageState} (hs : Shows s p) (name : String) :
    Shows (s.choose name) { p with declaration := some (Markup.doctype name) } :=
  ⟨rfl, by simp [WriterState.choose, PageState.terse], by simp [WriterState.choose, PageState.xml],
    hs.declared, hs.opened, hs.helpers⟩

theorem shows_startState (options : Options) (hd : options.debug = false) :
    Shows (startState options) (.start options.doctype) := by
  have hem : Shows {} { } := ⟨rfl, rfl, rfl, rfl, rfl, rfl⟩
  unfold startState PageState.start
  rw [hd]
  cases options.doctype with
  | none => exact hem
  | some name => exact hem.choose name

theorem renders_writeDoctype (p : PageState) : Renders WriterSetting.writeDoctype p
      ⟨p.declaration.getD "", [], { p with declared := true }⟩ := by
  intro s hs
  have hp : Shows { s with doctypeWritten := true } { p with declared := true } :=
    ⟨hs.doctype, hs.terse, hs.xml, rfl, hs.opened, hs.helpers⟩
  unfold WriterSetting.writeDoctype
  rw [Emit.state_bind, hs.doctype]
  obtain ⟨declaration, declared, opened⟩ := p
  cases declaration with
  | none => exact ⟨[], _, rfl, by simp, hp⟩
  | some d => exact ⟨[d], _, rfl, by simp, hp⟩

theorem renders_doctype (name : String) (p : PageState) : Renders (WriterSetting.doctype name) p
      ⟨(p.declare name).declaration.getD "", [], p.declare name⟩ := by
  intro s hs
  unfold WriterSetting.doctype
  rw [Emit.state_bind]
  by_cases hn : name.isEmpty
  · cases hd : p.declaration with
    | none =>
      -- no name, and no declaration in force: the page becomes `html`
      have hp : p.declare name =
          { p with declaration := some (doctype "html"), declared := true } := by
        simp [PageState.declare, hn, hd]
      simp only [hn, hs.doctype, hd, Bool.not_true, Option.isNone_none, false_eq_true,
        if_false, if_true, Emit.change_bind]
      rw [hp]
      exact renders_writeDoctype _ _ (hs.choose "html")
    | some d =>
      have hp : p.declare name = { p with declared := true } := by
        simp [PageState.declare, hn, hd]
      simp only [hn, hs.doctype, hd, Bool.not_true, Option.isNone_some, false_eq_true, if_false]
      rw [hp]
      exact renders_writeDoctype p s hs
  · have hp : p.declare name =
        { p with declaration := some (doctype name), declared := true } := by
      simp [PageState.declare, hn]
    simp only [hn, Bool.not_false, if_true, Emit.change_bind]
    rw [hp]
    exact renders_writeDoctype _ _ (hs.choose name)

/-! ## Tags -/

/-- A setting in which neither indentation nor lines are written. -/
structure Unadorned (env : WriterSetting) : Prop where
  indentation : env.options.indentation = none
  debug : env.options.debug = false

namespace Unadorned

variable {env : WriterSetting}

theorem isPretty (h : Unadorned env) : env.isPretty = false := by
  simp [WriterSetting.isPretty, h.indentation]

theorem newline (h : Unadorned env) (more : Nat) : env.newline more = pure () := by
  simp [WriterSetting.newline, h.isPretty]

theorem emitDebugLine (h : Unadorned env) (node : Node) : emitDebugLine env node = pure () := by
  simp [Program.emitDebugLine, h.debug]

theorem deeper (h : Unadorned env) : Unadorned { env with depth := env.depth + 1 } :=
  ⟨h.indentation, h.debug⟩

end Unadorned

theorem renders_keepSpace (c b : Bool) (p : PageState) :
    Renders (Emit.onlyIf c (Emit.change fun s => { s with keepSpace := b })) p ⟨"", [], p⟩ := by
  cases c with
  | false => exact .nothing
  | true =>
    exact .silent fun s hs =>
      ⟨_, rfl, ⟨hs.doctype, hs.terse, hs.xml, hs.declared, hs.opened, hs.helpers⟩⟩

theorem renders_tagWritten (p : PageState) :
    Renders (Emit.change fun s => { s with tagWritten := true }) p
      ⟨"", [], { p with opened := true }⟩ :=
  .silent fun _ hs => ⟨_, rfl, ⟨hs.doctype, hs.terse, hs.xml, hs.declared, rfl, hs.helpers⟩⟩

variable {name : String} {head : TagHead} {env : WriterSetting} {node : Node}

theorem renders_firstTag (hla : head.label = .name name) (p : PageState) :
    Renders (emitFirstTag head) p
      ⟨if p.leads name then p.declaration.getD "" else "", [], p.openTag name⟩ := by
  refine .state fun s hs => ?_
  have hh : (head.label == .name "html") = (name == "html") := by
    rw [hla, Bool.eq_iff_iff]; simp
  rw [hs.opened, hs.declared, hh]
  -- a later tag changes nothing, whatever its name is
  cases ho : p.opened with
  | true =>
    have hl : p.leads name = false := by simp [PageState.leads, ho]
    have hop : p.openTag name = p := by
      obtain ⟨declaration, declared, opened⟩ := p
      simp_all [PageState.openTag]
    rw [hl, hop]
    exact .nothing
  | false =>
    have hl : p.leads name = (!p.declared && name == "html") := by
      simp [PageState.leads, ho]
    rw [PageState.openTag, hl]
    cases !p.declared && name == "html" with
    | true =>
      rw [Bool.or_true]
      have h := (renders_writeDoctype p).bind (renders_tagWritten { p with declared := true })
      rwa [Page.append, append_empty] at h
    | false =>
      rw [Bool.or_false]
      have h := Renders.nothing.bind (renders_tagWritten p)
      rwa [Page.append] at h

theorem renders_startTag (hen : Unadorned env) (hl : head.label = .name name)
    (ha : head.attributes = []) (hs : head.spreads = []) (p : PageState) :
    Renders (emitStartTag env head) p
      ⟨(if p.leads name then p.declaration.getD "" else "") ++ "<" ++ name, [],
        p.openTag name⟩ := by
  have hli : Emit.onlyIf (!head.isInline) (env.newline 0) = pure () := by
    rw [hen.newline]; cases head.isInline <;> rfl
  have hp : env.tagAttributes head.attributes head.spreads = pure () := by
    rw [ha, hs]; rfl
  unfold emitStartTag
  rw [hli, hp, hl]
  have h := (renders_keepSpace (keepsSpace head) true p).bind
    ((renders_firstTag hl p).bind ((Renders.text "<").bind ((Renders.text name).bind .nothing)))
  simpa [Page.append, append_assoc, emitName] using h

/-- The end of a tag that ends itself; content besides white space is refused. -/
theorem renders_closed {tag : PlacedTag} {name : String} (hl : tag.head.label = .name name)
    (h : tag.isClosed) :
    Renders (emitClosed tag.head tag.content) tag.place ⟨tag.closing, [tag], tag.place⟩ := by
  refine .state fun s hs => ?_
  have hc : (if s.terse && !tag.head.selfClosing then ">" else "/>") = tag.closing := by
    rw [hs.terse]; rfl
  have hf : tag.isOverfull = !tag.content.all isBlankNode := by
    simp [PlacedTag.isOverfull, h, List.not_all_eq_any_not]
  rw [hc, ← hf]
  intro t ht
  cases ho : tag.isOverfull with
  | true =>
    -- the end has been written when the content is refused, and is lost with it
    simp only [List.find?_cons, ho, if_true]
    rw [Emit.bind_run_ok (Emit.text_run _ t)]
    simp [Except.map, PlacedTag.diagnostic, plainName, hl, knownName?, shownName]
  | false =>
    simp only [List.find?_cons, ho, List.find?_nil]
    exact ⟨[tag.closing], t, rfl, by simp, ht⟩

theorem renders_endTag (hen : Unadorned env) (hl : head.label = .name name) (body : Block)
    (p : PageState) : Renders (emitEndTag env head body) p ⟨"</" ++ name ++ ">", [], p⟩ := by
  have hli : ∀ c, Emit.onlyIf c (env.newline 0) = pure () := by
    intro c; rw [hen.newline]; cases c <;> rfl
  unfold emitEndTag
  rw [hli, hl]
  have h := (Renders.text (p := p) "</").bind ((Renders.text name).bind (Renders.text ">"))
  simpa [Page.append, append_assoc, emitName] using h

/-! ## Trees -/

theorem name_of_isPlainTag (h : isPlainTag head) :
    ∃ name, head.label = .name name ∧ head.attributes = [] ∧ head.spreads = [] := by
  unfold isPlainTag at h
  simp only [and_eq_true, List.isEmpty_iff] at h
  obtain ⟨⟨hn, ha⟩, hs⟩ := h
  cases hl : head.label with
  | name name => exact ⟨name, rfl, ha, hs⟩
  | expression source => rw [hl] at hn; exact absurd hn (by simp [knownName?])

theorem isUnusedMixin_of_isStatic (h : isStatic node) (use : MixinUse) :
    isUnusedMixin use node = false := by
  cases node <;> first | rfl | exact absurd h (by simp [isStatic])

theorem renders_tag (hen : Unadorned env) {body : Block} (hpl : isPlainTag head) (p : PageState)
    (hb : ∀ q, Renders (emitBlock { env with depth := env.depth + 1 } body) q (pageBlock q body)) :
    Renders (emitNode env (.tag head body)) p (pageNode p (.tag head body)) := by
  obtain ⟨name, hl, ha, hsp⟩ := name_of_isPlainTag hpl
  have hn : plainName head = name := by simp [plainName, hl, knownName?]
  have hst := renders_startTag hen.deeper hl ha hsp p
  simp only [emitNode, pageNode, hn]
  generalize ht : PlacedTag.mk head body.nodes (p.openTag name) = tag
  have hh : tag.head = head := by rw [← ht]
  have hco : tag.content = body.nodes := by rw [← ht]
  have hp : tag.place = p.openTag name := by rw [← ht]
  -- the writer and the page agree on which tags end themselves
  have hsa : ∀ s, Shows s (p.openTag name) → isClosed head s = tag.isClosed := by
    intro s hs
    simp [isClosed, PlacedTag.isClosed, hh, hp, hs.xml, plainName, hl, knownName?]
  cases hc : tag.isClosed with
  | true =>
    have hend := @renders_closed tag name (hh ▸ hl) hc
    rw [hh, hco, hp] at hend
    apply Renders.congr
    · exact hst.bind (.state fun s hs => by
        rw [hsa s hs, if_pos hc]
        exact hend.bind (renders_keepSpace (keepsSpace head) false _))
    · simp [Page.append]
  | false =>
    have hf : tag.isOverfull = false := by simp [PlacedTag.isOverfull, hc]
    apply Renders.congr
    · exact Renders.cons_tag hf (hst.bind (.state fun s hs => by
        rw [hsa s hs, if_neg (by simp [hc])]
        exact (Renders.text ">").bind ((hb (p.openTag name)).bind
          ((renders_endTag hen.deeper hl body _).bind
            (renders_keepSpace (keepsSpace head) false _)))))
    · simp [Page.append, append_assoc]

theorem emitNodes_cons (hen : Unadorned env) (hs : isStatic node)
    (before : Option Node) (rest : List Node) :
    emitNodes env false before (node :: rest) =
      (emitNode env node >>= fun _ => emitNodes env false (some node) rest) := by
  simp [emitNodes, isUnusedMixin_of_isStatic hs, hen.emitDebugLine]

theorem emitBlock_run (hen : Unadorned env) (nodes : List Node) (location : Location)
    (s : WriterState) : emitBlock env ⟨nodes, location⟩ s = emitNodes env false none nodes s := by
  rw [emitBlock, Emit.state_bind, hen.isPretty]
  simp

mutual

theorem renders_node {env : WriterSetting} (hen : Unadorned env) (node : Node)
    (hs : isStatic node) (p : PageState) :
    Renders (emitNode env node) p (pageNode p node) := by
  cases node with
  | block body | namedBlock name mode body location =>
    simpa [emitNode, pageNode] using renders_block hen body hs p
  | tag head body =>
    simp only [isStatic, and_eq_true] at hs
    exact renders_tag hen hs.1 p (renders_block hen.deeper body hs.2)
  | text text html location => exact .text text
  | comment text buffer location =>
    simp only [emitNode, pageNode, hen.newline, Emit.pure_bind]
    cases buffer with
    | true => exact .text _
    | false => exact .nothing
  | blockComment text body buffer location =>
    simp only [emitNode, pageNode, hen.newline, Emit.pure_bind]
    cases buffer with
    | true =>
      have h := (Renders.text ("<!--" ++ text)).bind
        ((renders_block hen body hs p).bind (.text "-->"))
      simpa [Page.append, append_assoc] using h
    | false => exact .nothing
  | doctype name location => exact renders_doctype name p
  | _ => exact absurd hs (by simp [isStatic])

theorem renders_block {env : WriterSetting} (hen : Unadorned env) (body : BlockOf Node)
    (hst : isStaticBlock body) (p : PageState) :
    Renders (emitBlock env body) p (pageBlock p body) := by
  cases body with
  | mk nodes location =>
    intro s hs
    rw [emitBlock_run hen]
    exact renders_nodes hen nodes hst none p s hs

theorem renders_nodes {env : WriterSetting} (hen : Unadorned env) (nodes : List Node)
    (hs : areStatic nodes) (before : Option Node) (p : PageState) :
    Renders (emitNodes env false before nodes) p (pageNodes p nodes) := by
  cases nodes with
  | nil => exact .nothing
  | cons node rest =>
    simp only [areStatic, and_eq_true] at hs
    rw [emitNodes_cons hen hs.1]
    exact (renders_node hen node hs.1 p).bind (renders_nodes hen rest hs.2 (some node) _)

end

/-! ## Programs -/

theorem assemble_bare {parse : Script.Parser} {options : Options} (hd : options.debug = false)
    (hl : options.locals = .bare) (writes : List Write) :
    assemble parse options writes [] =
      { code := "function " ++ options.name ++
          "(locals) \x7bvar pug_html = \"\", pug_mixins = \x7b\x7d, pug_interp;" ++
          (Output.ofWrites writes).code ++ ";return pug_html;\x7d" } := by
  have hn : Helper.all.filter ([] : List Helper).contains = [] := by simp
  unfold assemble
  dsimp only
  rw [hn]
  unfold withDebug withLocals
  rw [hd, hl]
  rw [if_pos (by rfl), if_pos (by rfl), empty_append]

theorem code_text (text : String) : Segmented.code [.write [.text text]] =
      "pug_html = pug_html + \"" ++ Text.Quoted.body text ++ "\";" := by
  have hco : Segmented.code [.write [.text text]] =
      "pug_html = pug_html + " ++ Text.Quoted.script text ++ ";" := rfl
  have ho : "pug_html = pug_html + " ++ "\"" = "pug_html = pug_html + \"" := rfl
  have hc : "\"" ++ ";" = "\";" := rfl
  rw [hco, Text.Quoted.script_eq_body, ← append_assoc, ← append_assoc, ho, append_assoc, hc]

theorem code_texts (texts : List String) :
    ((Output.ofWrites (texts.map Write.text)).code = "" ∧ String.join texts = "") ∨
      ∃ inside, (Output.ofWrites (texts.map Write.text)).code =
          "pug_html = pug_html + \"" ++ inside ++ "\";" ∧
        Text.Quoted.Denotes inside (String.join texts) := by
  rw [Output.code_eq, Segmented.ofWrites_texts]
  by_cases hem : texts = []
  · left
    subst hem
    exact ⟨rfl, rfl⟩
  · right
    rw [if_neg hem]
    exact ⟨_, code_text _, Text.Quoted.denotes_body _⟩

/-- **The program of a static tree** writes the page of the tree. It is refused because a tag has
content that would be lost, exactly if a tag of the page has. Otherwise its body is empty, or one
statement with one literal, and the literal stands for the markup of the page. -/
theorem generate_static (parse : Script.Parser) (evaluator : Evaluator) (mixins : MixinUse)
    (options : Options) (root : Block) (hroot : isStaticBlock root = true)
    (hindent : options.indentation = none) (hdebug : options.debug = false) (hlocals : options.locals = .bare) :
    let page := pageBlock (.start options.doctype) root
    let result := generate parse evaluator mixins options root
    ((∃ d, result = .error d) ↔ ∃ tag ∈ page.tags, tag.isOverfull = true) ∧
      (∀ d, result = .error d → d.category = .selfClosingContent) ∧
      ∀ program, result = .ok program →
        program.helpers = [] ∧
        ∃ body, program.code = "function " ++ options.name ++
            "(locals) \x7bvar pug_html = \"\", pug_mixins = \x7b\x7d, pug_interp;" ++ body ++
            ";return pug_html;\x7d" ∧
          ((body = "" ∧ page.markup = "") ∨
            ∃ inside, body = "pug_html = pug_html + \"" ++ inside ++ "\";" ∧
              Text.Quoted.Denotes inside page.markup) := by
  intro page result
  let env : WriterSetting := { evaluator, mixins, options }
  have henv : Unadorned env := ⟨hindent, hdebug⟩
  have htree : emitTree env root = emitBlock env root := by
    simp [emitTree, WriterSetting.isPretty, env, hindent]
  have hrun := renders_block henv root hroot (.start options.doctype) (startState options)
    (shows_startState options hdebug)
  rw [← htree] at hrun
  -- the walk stops at the first tag that is overfull, and there is one if any tag is
  cases hfind : page.tags.find? PlacedTag.isOverfull with
  | some tag =>
    have hmem := List.mem_of_find?_eq_some hfind
    have htag : tag.isOverfull = true := List.find?_some hfind
    rw [show (pageBlock (.start options.doctype) root).tags.find? _ = some tag from hfind] at hrun
    have hresult : result = .error tag.diagnostic := by
      simp only [result, generate]
      rw [show emitTree _ root _ = .error tag.diagnostic from hrun]
      rfl
    refine ⟨⟨fun _ => ⟨tag, hmem, htag⟩, fun _ => ⟨_, hresult⟩⟩, ?_, ?_⟩
    · intro d hd
      rw [hresult] at hd
      cases hd
      rfl
    · intro program hprogram
      rw [hresult] at hprogram
      cases hprogram
  | none =>
    rw [show (pageBlock (.start options.doctype) root).tags.find? _ = none from hfind] at hrun
    obtain ⟨texts, t, hok, hjoin, ht⟩ := hrun
    have hresult : result = .ok (assemble parse options (texts.map Write.text) []) := by
      simp only [result, generate]
      rw [show emitTree _ root _ = .ok ((), texts.map Write.text, t) from hok, ← ht.helpers]
      rfl
    refine ⟨⟨?_, ?_⟩, ?_, ?_⟩
    · rintro ⟨d, hd⟩
      rw [hresult] at hd
      cases hd
    · rintro ⟨tag, hmem, htag⟩
      exact absurd htag (List.find?_eq_none.1 hfind tag hmem)
    · intro d hd
      rw [hresult] at hd
      cases hd
    · intro program hprogram
      rw [hresult, assemble_bare hdebug hlocals] at hprogram
      cases hprogram
      have hbody := code_texts texts
      rw [hjoin] at hbody
      exact ⟨rfl, _, rfl, hbody⟩

/-- A `br` with content is refused in a page that is not `xml`. -/
theorem generate_static_br :
    let br : TagHead := { label := .name "br", location := {} }
    let content : List Node := [.comment "lost" true {}]
    let root : Block :=
      ⟨[.tag { label := .name "html", location := {} } ⟨[.tag br ⟨content, {}⟩], {}⟩], {}⟩
    let options : Options := { debug := false, locals := .bare }
    isStaticBlock root = true ∧ ∃ d, generate (fun _ => none) .foldNothing {} options root = .error d := by
  intro br content root options
  have hstatic : isStaticBlock root = true := by decide
  have hmem : ⟨br, content, { declared := true, opened := true }⟩ ∈
      (pageBlock (.start options.doctype) root).tags := List.mem_cons_of_mem _ List.mem_cons_self
  exact ⟨hstatic, (generate_static (fun _ => none) .foldNothing {} options root hstatic rfl rfl rfl).1.2
    ⟨_, hmem, by decide⟩⟩

end Program
end PugTemplate
