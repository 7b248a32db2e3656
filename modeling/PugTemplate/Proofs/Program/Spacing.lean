import Mathlib.Algebra.GroupWithZero.Nat
import PugTemplate.Proofs.Program.Content
import PugTemplate.Proofs.Program.Parts
/-!
# White space that counts

In `pre` and `textarea`, white space is content. Indentation does not touch it as long as every tag
in there is one that stays on its line. Any other tag starts a new line, even in there, so that the
content of the element gets longer.
-/

namespace PugTemplate

open List
namespace Program

open Emit WriterSetting

/-! ## Markup -/

/-- Puts a part in front of parts. Texts that meet are one text. -/
def Part.putFirst : Part → List Part → List Part
  | .text chars, rest => joinText chars rest
  | part, rest => part :: rest

/-- What writes make up, with texts that meet joined. -/
def markupOf (ws : List Write) : List Part := (ws.map Write.part).foldr Part.putFirst []

/-- The number of characters that a part writes by itself. -/
def Part.width : Part → Nat
  | .text chars => chars.length
  | _ => 0

/-- The number of characters that parts write. -/
def width (parts : List Part) : Nat := (parts.map Part.width).sum

@[simp] theorem width_cons (p : Part) (parts : List Part) :
    width (p :: parts) = p.width + width parts := by
  simp [width]

@[simp] theorem width_append (first second : List Part) :
    width (first ++ second) = width first + width second := by
  simp [width]

theorem width_joinText (chars : List Char) (parts : List Part) :
    width (joinText chars parts) = chars.length + width parts := by
  unfold joinText
  split
  · simp [Part.width, Nat.add_assoc]
  · split
    · next h => simp [isEmpty_iff.mp h]
    · simp [Part.width]

theorem width_markupOf (ws : List Write) : width (markupOf ws) = width (ws.map Write.part) := by
  unfold markupOf
  induction ws.map Write.part with
  | nil => rfl
  | cons p parts ih =>
    rw [width_cons, ← ih]
    cases p with
    | text chars => exact width_joinText chars _
    | value source | raw code => simp [Part.putFirst]

/-! ## Trees -/

mutual

/-- A tag with a known name, or a text. So is everything in it. -/
def isMarkup : Node → Bool
  | .tag head body => (knownName? head.label).isSome && isMarkupBlock body
  | .text _ _ _ => true
  | _ => false

def isMarkupBlock : BlockOf Node → Bool
  | ⟨nodes, _⟩ => areMarkup nodes

def areMarkup : List Node → Bool
  | [] => true
  | node :: rest => isMarkup node && areMarkup rest

end

mutual

/-- Every tag of the tree stays on the line of the text around it. -/
def isInlineTree : Node → Bool
  | .tag head body => head.isInline && isInlineBlock body
  | _ => true

/-- Every tag of the block stays on the line of the text around it. -/
def isInlineBlock : BlockOf Node → Bool
  | ⟨nodes, _⟩ => areInline nodes

/-- Every tag of the nodes stays on the line of the text around it. -/
def areInline : List Node → Bool
  | [] => true
  | node :: rest => isInlineTree node && areInline rest

end

mutual

/-- The tags of a tree in which white space counts, with their bodies, in their order. A tag that is
closed has no body. -/
def spacedTags (closed : TagHead → Bool) : Node → List (TagHead × Block)
  | .tag head body =>
    if closed head then []
    else (if keepsSpace head then [(head, body)] else []) ++ spacedTagsOfBlock closed body
  | _ => []

def spacedTagsOfBlock (closed : TagHead → Bool) : BlockOf Node → List (TagHead × Block)
  | ⟨nodes, _⟩ => spacedTagsOfNodes closed nodes

def spacedTagsOfNodes (closed : TagHead → Bool) : List Node → List (TagHead × Block)
  | [] => []
  | node :: rest => spacedTags closed node ++ spacedTagsOfNodes closed rest

end

/-! ## Elements where they are written -/

/-- An element in which white space counts, with the setting and the state in which the writer comes
to its body. -/
structure SpacedElement where
  env : WriterSetting
  state : WriterState
  head : TagHead
  body : Block

/-- What is written between the start tag and the end tag of the element. -/
def SpacedElement.content (e : SpacedElement) : Except Diagnostic (List Part) :=
  (emitBlock e.env e.body e.state).map fun r => markupOf r.2.1

mutual

/-- The elements in which white space counts, as a node is written from a state on. -/
def spacedNode (env : WriterSetting) (s : WriterState) : Node → List SpacedElement
  | .tag head body =>
    let env := { env with depth := env.depth + 1 }
    match emitStartTag env head s with
    | .error _ => []
    | .ok (_, _, t) =>
      if isClosed head t then []
      else (if keepsSpace head then [⟨env, t, head, body⟩] else []) ++ spacedBlock env t body
  | _ => []

def spacedBlock (env : WriterSetting) (s : WriterState) : BlockOf Node → List SpacedElement
  | ⟨nodes, _⟩ => spacedNodes env s nodes

/-- Those of nodes, each of which is written from the state that the one before it ends in. -/
def spacedNodes (env : WriterSetting) (s : WriterState) : List Node → List SpacedElement
  | [] => []
  | node :: rest =>
    spacedNode env s node ++
      match emitNode env node s with
      | .error _ => []
      | .ok (_, _, t) => spacedNodes env t rest

end

def WriterSetting.plain (env : WriterSetting) : WriterSetting :=
  { env with options := { env.options with indentation := none } }

/-- The element where it is written without indentation. -/
def SpacedElement.plain (e : SpacedElement) : SpacedElement := { e with env := e.env.plain }

/-! ## Where white space counts -/

/-- The action leaves alone what the state knows about white space, and whether every element has an
end. -/
def Leaves {α : Type} (x : Emit α) : Prop :=
  ∀ s a ws t, x s = .ok (a, ws, t) → t.keepSpace = s.keepSpace ∧ t.xml = s.xml

namespace Leaves

variable {α β : Type}

theorem pure (a : α) : Leaves (Pure.pure a : Emit α) := by
  rintro s b ws t ⟨⟩
  exact ⟨rfl, rfl⟩

theorem write (w : Write) : Leaves (Emit.write w) := by
  rintro s b ws t ⟨⟩
  exact ⟨rfl, rfl⟩

theorem state : Leaves Emit.state := by
  rintro s b ws t ⟨⟩
  exact ⟨rfl, rfl⟩

theorem change {f : WriterState → WriterState}
    (hf : ∀ s, (f s).keepSpace = s.keepSpace ∧ (f s).xml = s.xml) : Leaves (Emit.change f) := by
  rintro s b ws t ⟨⟩
  exact hf s

theorem fail (d : Diagnostic) : Leaves (Emit.fail d : Emit α) := by
  rintro s b ws t ⟨⟩

theorem bind {x : Emit α} {f : α → Emit β} (hx : Leaves x) (hf : ∀ a, Leaves (f a)) :
    Leaves (x >>= f) := by
  intro s b ws u hr
  obtain ⟨a, first, t, second, hxs, hft, -⟩ := bind_eq_ok.mp hr
  have hfi := hx s a first t hxs
  have hs := hf a t b second u hft
  exact ⟨hs.1.trans hfi.1, hs.2.trans hfi.2⟩

theorem onlyIf {x : Emit Unit} (c : Bool) (hx : Leaves x) : Leaves (Emit.onlyIf c x) := by
  cases c with
  | true => exact hx
  | false => exact .pure ()

theorem ite {c : Prop} [Decidable c] {x y : Emit α} (hx : Leaves x) (hy : Leaves y) :
    Leaves (if c then x else y) := by
  split
  · exact hx
  · exact hy

end Leaves

section Leaves

variable (env : WriterSetting)

/-- Only document types and tags in which white space counts tell what the state knows of that. -/
theorem relates_leaves : RelatesParts Eq fun _ x _ => Leaves x where
  pure := .pure
  bind := .bind
  withState h := .bind .state fun s => h s [] 0
  text _ := .write _
  value _ := .write _
  doctypeWritten := .change fun _ => ⟨rfl, rfl⟩
  tagWritten := .change fun _ => ⟨rfl, rfl⟩
  evaluator hen := hen ▸ rfl
  helper _ _ _ := .bind (.onlyIf _ (.change fun _ => ⟨rfl, rfl⟩)) fun _ => .pure _
  attributes _ _ _ := .bind .state fun _ =>
    .bind (.onlyIf _ (.change fun _ => ⟨rfl, rfl⟩)) fun _ => .pure _
  indent _ _ _ _ := .onlyIf _ (.bind (.write _) fun _ => .onlyIf _ (.write _))

theorem leaves_emitClosed (head : TagHead) (nodes : List Node) : Leaves (emitClosed head nodes) :=
  .bind .state fun _ => .bind (.write _) fun _ => .ite (.fail _) (.pure _)

theorem emitStartTag_state {head : TagHead} {s t : WriterState} {ws : List Write}
    (h : emitStartTag env head s = .ok ((), ws, t)) :
    t.keepSpace = (keepsSpace head || s.keepSpace) ∧ t.xml = s.xml := by
  obtain ⟨⟨⟩, first, u, second, hn, ht, -⟩ := bind_eq_ok.mp h
  have hr := relates_leaves.startTag rfl head u () second t ht
  cases hk : keepsSpace head with
  | false | true =>
    rw [hk] at hn
    cases hn
    exact hr

end Leaves

variable {head : TagHead} {node : Node} {env : WriterSetting} {ws : List Write} {s t : WriterState}
  {e : SpacedElement}

/-- Tags that stay on their line are no elements in which white space counts. -/
theorem keepsSpace_of_isInline (h : head.isInline) : keepsSpace head = false := by
  unfold TagHead.isInline at h
  unfold keepsSpace
  cases hl : head.label with
  | name name =>
    rw [hl] at h
    simp only [Markup.keepsSpace, contains_eq_mem, decide_eq_false_iff_not, mem_cons,
      not_mem_nil, or_false]
    rintro (rfl | rfl)
    · exact absurd h (by decide)
    · exact absurd h (by decide)
  | expression source => rfl

/-! ## Indentation adds characters -/

/-- Both runs from a state fail alike, or both succeed and end in the same state. Then the first one
writes as many characters as the second one at least, and more if `more` holds. Where white space
counts, both write the same if `same` holds, and it still counts behind them. -/
inductive WiderRun (more same : Prop) (s : WriterState) :
    Except Diagnostic (Unit × List Write × WriterState) →
    Except Diagnostic (Unit × List Write × WriterState) → Prop where
  | fail (d : Diagnostic) : WiderRun more same s (.error d) (.error d)
  | done {ws us : List Write} {t : WriterState}
      (hle : width (us.map Write.part) ≤ width (ws.map Write.part))
      (hlt : more → width (us.map Write.part) < width (ws.map Write.part))
      (hsame : same → s.keepSpace = true → ws = us ∧ t.keepSpace = true) :
      WiderRun more same s (.ok ((), ws, t)) (.ok ((), us, t))

/-- From each state on, the first action runs like the second one, and writes more characters if
`more` holds, or the same where white space counts if `same` holds. -/
def Widens (more same : Prop) (x y : Emit Unit) : Prop := ∀ s, WiderRun more same s (x s) (y s)

namespace Widens

variable {more more' same same' : Prop} {x y x' y' : Emit Unit}

theorem imp (h : Widens more same x y) (hm : more' → more) (hs : same' → same) :
    Widens more' same' x y := by
  intro s
  have hr := h s
  generalize x s = r, y s = q at hr
  cases hr with
  | fail d => exact .fail d
  | done hl hlt hk => exact .done hl (fun h => hlt (hm h)) fun h => hk (hs h)

theorem refl (hx : same → Leaves x) : Widens False same x x := by
  intro s
  cases hr : x s with
  | error d => exact .fail d
  | ok r => exact .done (Nat.le_refl _) nofun fun h hs => ⟨rfl, (hx h s _ _ _ hr).1.trans hs⟩

theorem also (h : Widens more False x y) (hs : same → x = y ∧ Leaves x) : Widens more same x y := by
  by_cases h' : same
  · obtain ⟨rfl, hx⟩ := hs h'
    intro s
    have hr := h s
    have hk := refl (fun _ : True => hx) s
    generalize x s = r at hr hk
    cases hr with
    | fail d => exact .fail d
    | done hl hlt _ =>
      cases hk with
      | done _ _ hk => exact .done hl hlt fun _ => hk trivial
  · exact h.imp id h'

theorem bind (h : Widens more same x y) (h' : Widens more' same' x' y') :
    Widens (more ∨ more') (same ∧ same') (x >>= fun _ => x') (y >>= fun _ => y') := by
  intro s
  have hr := h s
  generalize hx : x s = r, hy : y s = q at hr
  cases hr with
  | fail d =>
    rw [bind_run_error hx, bind_run_error hy]
    exact .fail d
  | @done ws us t hle hl hsa =>
    rw [bind_run_ok hx, bind_run_ok hy]
    have hr' := h' t
    generalize x' t = r', y' t = q' at hr'
    cases hr' with
    | fail d => exact .fail d
    | done hle' hl' hs' =>
      refine .done ?_ ?_ ?_
      · simp only [map_append, width_append]
        omega
      · rintro (hm | hm)
        · have hf := hl hm
          simp only [map_append, width_append]
          omega
        · have hse := hl' hm
          simp only [map_append, width_append]
          omega
      · intro h hs
        obtain ⟨rfl, ht⟩ := hsa h.1 hs
        obtain ⟨rfl, hu⟩ := hs' h.2 ht
        exact ⟨rfl, hu⟩

theorem ofState {f g : WriterState → Emit Unit}
    (h : ∀ s, Widens more (s.keepSpace ∧ same) (f s) (g s)) :
    Widens more same (Emit.state >>= f) (Emit.state >>= g) := by
  intro s
  rw [state_bind, state_bind]
  have hr := h s s
  generalize f s s = r, g s s = q at hr
  cases hr with
  | fail d => exact .fail d
  | done hl hlt hsa => exact .done hl hlt fun h hs => hsa ⟨hs, h⟩ hs

theorem ite {c : Prop} [Decidable c] (h : Widens more same x y) (h' : Widens more same x' y') :
    Widens more same (if c then x else x') (if c then y else y') := by
  split
  · exact h
  · exact h'

theorem plain_ok (h : Widens more same x y) {s t : WriterState} {ws : List Write}
    (hx : x s = .ok ((), ws, t)) : ∃ us, y s = .ok ((), us, t) := by
  have hr := h s
  rw [hx] at hr
  generalize y s = q at hr
  cases hr with
  | done => exact ⟨_, rfl⟩

end Widens

theorem widens_write (w : Write) (c : Bool) :
    Widens (c ∧ 0 < w.part.width) (c = false) (onlyIf c (write w)) (pure ()) := by
  intro s
  cases c with
  | false => exact .done (Nat.le_refl _) nofun fun _ hs => ⟨rfl, hs⟩
  | true => exact .done (Nat.zero_le _) (fun ⟨_, hp⟩ => hp) nofun

section Layout

variable {env : WriterSetting}

theorem widens_indent (env : WriterSetting) (levels : Nat) (newline c : Bool) :
    Widens (c ∧ newline) (c = false) (onlyIf c (env.indent levels newline)) (pure ()) := by
  cases c with
  | false => exact (Widens.refl fun _ : True => .pure ()).imp nofun fun _ => trivial
  | true =>
    let line := (if newline then "\n" else "") ++ env.indentationText (env.depth + levels - 1)
    have hb := (widens_write (.text line) true).bind
      (widens_write (.statement "pug_html = pug_html + pug_indent.join(\"\");") (0 < env.mixinDepth))
    refine hb.imp (fun ⟨_, hn⟩ => .inl ⟨rfl, ?_⟩) nofun
    subst hn
    simp [line, Write.part, Part.width, String.toList_append]

theorem widens_newline (hp : env.isPretty) (levels : Nat) (c : Bool) :
    Widens (c) False (onlyIf c (env.newline levels)) (onlyIf c (env.plain.newline levels)) := by
  have hl := (widens_indent env levels true c).imp (fun h => ⟨h, rfl⟩) False.elim
  have hpl : onlyIf c (env.plain.newline levels) = pure () := by cases c <;> rfl
  rwa [newline, hp, hpl]

theorem widens_startTag (hp : env.isPretty) (head : TagHead) :
    Widens (head.isInline = false) (head.isInline) (emitStartTag env head)
      (emitStartTag env.plain head) := by
  have hl := (widens_newline hp 0 (!head.isInline)).imp
    (fun h : head.isInline = false => by simp [h]) id
  refine (((Widens.refl False.elim).bind ((Widens.refl False.elim).bind
    (hl.bind (.refl False.elim)))).imp (fun h => .inr (.inr (.inl h))) False.elim).also ?_
  intro hi
  have hr := relates_leaves.startTag (rfl : env = env) head
  simp only [hi, keepsSpace_of_isInline hi, Bool.not_true, onlyIf_false, Emit.pure_bind]
    at hr ⊢
  exact ⟨trivial, hr⟩

theorem widens_endTag (hp : env.isPretty) (head : TagHead) (body : Block) :
    Widens False (head.isInline) (emitEndTag env head body) (emitEndTag env.plain head body) := by
  refine (((widens_newline hp 0 _).bind (.refl False.elim)).imp nofun False.elim).also ?_
  intro hi
  have hl := relates_leaves.emitEndTag (rfl : env = env) head body
  unfold emitEndTag at hl
  simp only [hi, Bool.not_true, Bool.false_and, onlyIf_false, Emit.pure_bind] at hl ⊢
  exact ⟨trivial, hl⟩

theorem areInline_of_blank {nodes : List Node} (h : nodes.all isBlankNode) :
    areInline nodes := by
  induction nodes with
  | nil => rfl
  | cons node rest ih =>
    rw [all_cons, Bool.and_eq_true] at h
    have hn : isInlineTree node := by
      cases node <;> first | rfl | exact absurd h.1 (by simp [isBlankNode])
    simp [areInline, hn, ih h.2]

theorem widens_closed (head : TagHead) (body : Block) :
    Widens (isInlineBlock body = false) True (emitClosed head body.nodes)
      (emitClosed head body.nodes) := by
  intro s
  by_cases hb : body.nodes.all isBlankNode
  · have hi : isInlineBlock body := by
      cases body
      exact areInline_of_blank hb
    exact (Widens.refl fun _ => leaves_emitClosed head _).imp (fun h => by simp [hi] at h) id s
  · have hf : ∃ d, emitClosed head body.nodes s = .error d := by
      simp [emitClosed, hb, state_bind, bind_run_ok (text_run _ _), Except.map]
    obtain ⟨d, hf⟩ := hf
    rw [hf]
    exact .fail d

end Layout

theorem isUnusedMixin_of_isMarkup (h : isMarkup node) (use : MixinUse) :
    isUnusedMixin use node = false := by
  cases node <;> first | rfl | exact absurd h (by simp [isMarkup])

mutual

/-- **A tree with indentation** has more characters, if one of its tags starts a line. Otherwise it
is written without indentation where white space counts. -/
theorem widens_node {env : WriterSetting} (hp : env.isPretty) (node : Node) (hn : isMarkup node) :
    Widens (isInlineTree node = false) (isInlineTree node) (emitNode env node)
      (emitNode env.plain node) := by
  cases node with
  | tag head body =>
    simp only [isMarkup, Bool.and_eq_true] at hn
    let inner : WriterSetting := { env with depth := env.depth + 1 }
    have hs := @widens_startTag inner hp head
    have hb := @widens_block inner hp body hn.2
    have hen := @widens_endTag inner hp head body
    have hno : Widens False (head.isInline)
        (onlyIf (keepsSpace head) (change fun s => { s with keepSpace := false })) _ :=
      .refl fun h => by
        rw [keepsSpace_of_isInline h]
        exact .pure ()
    have hi (h : isInlineTree (.tag head body)) : head.isInline ∧ isInlineBlock body := by
      rwa [isInlineTree, Bool.and_eq_true] at h
    have hc := ((widens_closed head body).bind hno).imp
      (fun h : isInlineBlock body = false => .inl h)
      fun h : isInlineTree (.tag head body) = true => ⟨trivial, (hi h).1⟩
    have ho := ((Widens.refl fun _ : True => .write (.text ">")).bind
      (hb.bind (hen.bind hno))).imp (fun h : isInlineBlock body = false => .inr (.inl h))
        fun h : isInlineTree (.tag head body) = true =>
          ⟨trivial, (hi h).2, (hi h).1, (hi h).1⟩
    simp only [emitNode]
    refine (hs.bind (.ofState fun s => (Widens.ite hc ho).imp id And.right)).imp
      (fun h => ?_) fun h => ⟨(hi h).1, h⟩
    rwa [isInlineTree, Bool.and_eq_false_iff] at h
  | text text html location =>
    exact (Widens.refl fun _ => .write _).imp (by simp [isInlineTree]) id
  | _ => exact absurd hn (by simp [isMarkup])

theorem widens_block {env : WriterSetting} (hp : env.isPretty) (body : BlockOf Node)
    (hb : isMarkupBlock body) :
    Widens (isInlineBlock body = false) (isInlineBlock body) (emitBlock env body)
      (emitBlock env.plain body) := by
  cases body with
  | mk nodes location =>
    simp only [emitBlock]
    refine .ofState fun s => ?_
    refine ((widens_indent env 1 true _).bind (widens_nodes hp _ none nodes hb)).imp .inr ?_
    rintro ⟨hs, h⟩
    simp only [hs, Bool.not_true, Bool.and_false, Bool.false_and]
    exact ⟨trivial, trivial, h⟩

theorem widens_nodes {env : WriterSetting} (hp : env.isPretty) (indented : Bool)
    (before : Option Node) (nodes : List Node) (hn : areMarkup nodes) :
    Widens (areInline nodes = false) (indented = false ∧ areInline nodes)
      (emitNodes env indented before nodes) (emitNodes env.plain false before nodes) := by
  cases nodes with
  | nil => exact (Widens.refl fun _ => .pure ()).imp (by simp [areInline]) id
  | cons node rest =>
    simp only [areMarkup, Bool.and_eq_true] at hn
    have hno := widens_node hp node hn.1
    have hr := widens_nodes hp indented (some node) rest hn.2
    simp only [emitNodes, isUnusedMixin_of_isMarkup hn.1, Bool.false_eq_true, if_false]
    refine ((widens_indent env 1 false _).bind ((Widens.refl fun _ : True => .onlyIf _ (.write _)).bind
      (hno.bind hr))).imp (fun h => ?_) fun ⟨hpl, h⟩ => ?_
    · rw [areInline, Bool.and_eq_false_iff] at h
      exact .inr (.inr h)
    · rw [areInline, Bool.and_eq_true] at h
      exact ⟨by simp [hpl], trivial, h.1, hpl, h.2⟩

end

/-! ## Elements in both programs -/

/-- A tag that has been written: its start tag, and its body unless it is closed. -/
theorem emitNode_tag_ok {body : Block} (h : emitNode env (.tag head body) s = .ok ((), ws, t)) :
    ∃ first u, emitStartTag { env with depth := env.depth + 1 } head s = .ok ((), first, u) ∧
      (isClosed head u ∧ t.xml = u.xml ∨ isClosed head u = false ∧ ∃ inside v,
        emitBlock { env with depth := env.depth + 1 } body u = .ok ((), inside, v) ∧
          t.xml = v.xml) := by
  have hn : ∀ c v last, (onlyIf c (change fun s => { s with keepSpace := false })) v =
      .ok ((), last, t) → t.xml = v.xml := by
    intro c v last hr
    cases c <;> cases hr <;> rfl
  obtain ⟨⟨⟩, first, u, others, hs, h, -⟩ := bind_eq_ok.mp h
  refine ⟨first, u, hs, ?_⟩
  rw [state_bind] at h
  split at h
  · next hc =>
    obtain ⟨⟨⟩, _, v, last, hen, hr, -⟩ := bind_eq_ok.mp h
    have hl := leaves_emitClosed head body.nodes _ _ _ _ hen
    exact .inl ⟨hc, (hn _ v last hr).trans hl.2⟩
  · next hc =>
    obtain ⟨⟨⟩, _, u', _, hb, h, -⟩ := bind_eq_ok.mp h
    cases hb
    obtain ⟨⟨⟩, inside, v, _, hbo, h, -⟩ := bind_eq_ok.mp h
    obtain ⟨⟨⟩, _, w, last, hen, hr, -⟩ := bind_eq_ok.mp h
    have hl := relates_leaves.emitEndTag rfl head body _ _ _ _ hen
    exact .inr ⟨Bool.eq_false_iff.mpr hc, inside, v, hbo, (hn _ w last hr).trans hl.2⟩

theorem onlyIf_indent_ok {levels : Nat} {newline c : Bool}
    (h : onlyIf c (env.indent levels newline) s = .ok ((), ws, t)) : t = s := by
  cases c with
  | false =>
    cases h
    rfl
  | true =>
    obtain ⟨⟨⟩, _, u, _, hl, hj, -⟩ := bind_eq_ok.mp h
    cases hl
    generalize decide (0 < env.mixinDepth) = inside at hj
    cases inside <;> cases hj <;> rfl

theorem emitNodes_cons_ok {indented : Bool} {before : Option Node} {rest : List Node}
    (hno : isMarkup node)
    (h : emitNodes env indented before (node :: rest) s = .ok ((), ws, t)) :
    ∃ first u last, emitNode env node s = .ok ((), first, u) ∧
      emitNodes env indented (some node) rest u = .ok ((), last, t) := by
  simp only [emitNodes, isUnusedMixin_of_isMarkup hno, Bool.false_eq_true, if_false] at h
  obtain ⟨⟨⟩, _, u, _, hi, hr, -⟩ := bind_eq_ok.mp h
  obtain ⟨⟨⟩, _, v, _, hl, hn, -⟩ := bind_eq_ok.mp hr
  obtain ⟨⟨⟩, first, w, last, hf, hla, -⟩ := bind_eq_ok.mp hn
  have hs : v = u := by
    unfold emitDebugLine at hl
    generalize (env.options.debug && hasDebugLine node) = noted at hl
    cases noted <;> cases hl <;> rfl
  rw [hs, onlyIf_indent_ok hi] at hf
  exact ⟨first, w, last, hf, hla⟩

theorem emitBlock_ok {nodes : List Node} {location : Location}
    (h : emitBlock env ⟨nodes, location⟩ s = .ok ((), ws, t)) :
    ∃ indented inside, emitNodes env indented none nodes s = .ok ((), inside, t) := by
  simp only [emitBlock, state_bind] at h
  obtain ⟨⟨⟩, _, u, inside, hi, hn, -⟩ := bind_eq_ok.mp h
  rw [onlyIf_indent_ok hi] at hn
  exact ⟨_, inside, hn⟩

theorem isClosed_congr (h : t.xml = s.xml) (head : TagHead) :
    isClosed head t = isClosed head s := by
  unfold isClosed
  rw [h]

/-- What is known of an element in a program that has been written. -/
structure SpacedElement.Written (e : SpacedElement) : Prop where
  keepSpace : e.state.keepSpace = true
  isPretty : e.env.isPretty = true
  isMarkup : isMarkupBlock e.body = true
  done : ∃ ws t, emitBlock e.env e.body e.state = .ok ((), ws, t)

def SpacedElement.tag (e : SpacedElement) : TagHead × Block := (e.head, e.body)

/-- What an action has written has these elements, the plain one has the same ones, and they are all
that the tree has. -/
def Lists (x : Emit Unit) (elements plain : WriterState → List SpacedElement)
    (tags : (TagHead → Bool) → List (TagHead × Block)) : Prop :=
  ∀ s ws t, x s = .ok ((), ws, t) → (∀ e ∈ elements s, e.Written) ∧ t.xml = s.xml ∧
    (elements s).map SpacedElement.tag = tags (isClosed · s) ∧
    plain s = (elements s).map SpacedElement.plain

mutual

theorem lists_node {env : WriterSetting} (hp : env.isPretty) (node : Node) (hn : isMarkup node) :
    Lists (emitNode env node) (spacedNode env · node) (spacedNode env.plain · node)
      (spacedTags · node) := by
  cases node with
  | tag head body =>
    simp only [isMarkup, Bool.and_eq_true] at hn
    let inner : WriterSetting := { env with depth := env.depth + 1 }
    intro s ws t hru
    obtain ⟨first, u, hst, hr⟩ := emitNode_tag_ok hru
    obtain ⟨_, hpl⟩ := (@widens_startTag inner hp head).plain_ok hst
    have hs := emitStartTag_state _ hst
    dsimp only
    rw [spacedNode, hst, spacedNode, spacedTags, ← isClosed_congr hs.2 head,
      show emitStartTag { env.plain with depth := env.plain.depth + 1 } head s = _ from hpl]
    rcases hr with ⟨hc, hx⟩ | ⟨hc, inside, v, hi, hx⟩
    · simp only [hc, if_true]
      exact ⟨fun e he => absurd he not_mem_nil, hx.trans hs.2, rfl, rfl⟩
    · obtain ⟨hw, hx', ht, hsa⟩ :=
        @lists_block inner hp body hn.2 u inside v hi
      have hco : (isClosed · u) = (isClosed · s) := funext (isClosed_congr hs.2)
      rw [hco] at ht
      dsimp only at ht hsa hw
      simp only [hc, Bool.false_eq_true, if_false]
      refine ⟨?_, hx.trans (hx'.trans hs.2), ?_, ?_⟩
      · intro e he
        rcases mem_append.mp he with he | he
        · split at he
          · next hk =>
            obtain rfl := mem_singleton.mp he
            exact ⟨by rw [hs.1, hk, Bool.true_or], hp, hn.2, inside, v, hi⟩
          · exact absurd he (by simp)
        · exact hw e he
      · rw [map_append, ht]
        split <;> rfl
      · rw [map_append, ← hsa]
        split <;> rfl
  | text text html location =>
    rintro s ws t ⟨⟩
    exact ⟨fun e he => absurd he not_mem_nil, rfl, rfl, rfl⟩
  | _ => exact absurd hn (by simp [isMarkup])

theorem lists_block {env : WriterSetting} (hp : env.isPretty) (body : BlockOf Node)
    (hb : isMarkupBlock body) :
    Lists (emitBlock env body) (spacedBlock env · body) (spacedBlock env.plain · body)
      (spacedTagsOfBlock · body) := by
  cases body with
  | mk nodes location =>
    intro s ws t hr
    obtain ⟨indented, inside, hn⟩ := emitBlock_ok hr
    exact lists_nodes hp indented none nodes hb s inside t hn

theorem lists_nodes {env : WriterSetting} (hp : env.isPretty) (indented : Bool)
    (before : Option Node) (nodes : List Node) (hn : areMarkup nodes) :
    Lists (emitNodes env indented before nodes) (spacedNodes env · nodes)
      (spacedNodes env.plain · nodes) (spacedTagsOfNodes · nodes) := by
  cases nodes with
  | nil =>
    rintro s ws t ⟨⟩
    exact ⟨fun e he => absurd he not_mem_nil, rfl, rfl, rfl⟩
  | cons node rest =>
    simp only [areMarkup, Bool.and_eq_true] at hn
    intro s ws t hr
    obtain ⟨first, u, last, hf, hl⟩ := emitNodes_cons_ok hn.1 hr
    obtain ⟨_, hpl⟩ := (widens_node hp node hn.1).plain_ok hf
    obtain ⟨hw, hx, ht, hs⟩ := lists_node hp node hn.1 s first u hf
    obtain ⟨hw', hx', ht', hs'⟩ :=
      lists_nodes hp indented (some node) rest hn.2 u last t hl
    have hc : (isClosed · u) = (isClosed · s) := funext (isClosed_congr hx)
    rw [hc] at ht'
    dsimp only at ht ht' hs hs' hw hw' ⊢
    rw [spacedNodes, hf, spacedNodes, hpl, spacedTagsOfNodes, map_append, map_append, ht, ht', hs]
    refine ⟨?_, hx'.trans hx, rfl, congrArg (_ ++ ·) hs'⟩
    intro e he
    exact (mem_append.mp he).elim (hw e) (hw' e)

end

/-! ## Programs -/

/-- Both contents of an element that has been written: the indented one and the plain one. -/
theorem SpacedElement.Written.content_eq (h : e.Written) :
    ∃ ws us : List Write, e.content = .ok (markupOf ws) ∧ e.plain.content = .ok (markupOf us) ∧
      (isInlineBlock e.body = false → width (us.map Write.part) < width (ws.map Write.part)) ∧
      (isInlineBlock e.body → ws = us) := by
  obtain ⟨ws, t, hr⟩ := h.done
  have hw := widens_block h.isPretty e.body h.isMarkup e.state
  rw [hr] at hw
  generalize hp : emitBlock e.env.plain e.body e.state = q at hw
  cases hw with
  | @done _ us _ _ hl hs =>
    refine ⟨ws, us, ?_, ?_, hl, fun hi => (hs hi h.keepSpace).1⟩
    · rw [content, hr]
      rfl
    · rw [content, show emitBlock e.plain.env e.plain.body e.plain.state = _ from hp]
      rfl

/-- **The content of an element** in which white space counts is the same with and without
indentation, exactly if all its tags stay on their lines. -/
theorem SpacedElement.Written.content_eq_iff (h : e.Written) :
    e.content = e.plain.content ↔ isInlineBlock e.body := by
  obtain ⟨ws, us, hws, hu, hl, hs⟩ := h.content_eq
  rw [hws, hu]
  constructor
  · intro hc
    -- The contents are equal, so they have as many characters.
    have hw := congrArg width (Except.ok.inj hc)
    rw [width_markupOf, width_markupOf] at hw
    cases hb : isInlineBlock e.body with
    | true => rfl
    | false =>
      have hm := hl hb
      omega
  · intro hi
    rw [hs hi]

def openingWrites (options : Options) : List Write :=
  if options.indentation.isSome then [.statement "var pug_indent = [];"] else []

theorem generate_eq_map (parse : Script.Parser) (evaluator : Evaluator) (mixins : MixinUse)
    (options : Options) (root : Block) :
    generate parse evaluator mixins options root =
      (emitBlock { evaluator, mixins, options } root (startState options)).map fun r =>
        assemble parse options (openingWrites options ++ r.2.1) r.2.2.helpers := by
  have ht : emitTree { evaluator, mixins, options } root (startState options) =
      (emitBlock { evaluator, mixins, options } root (startState options)).map fun r =>
        (r.1, openingWrites options ++ r.2.1, r.2.2) := by
    unfold emitTree openingWrites isPretty
    cases options.indentation.isSome with
    | false =>
      rw [onlyIf_false, Emit.pure_bind]
      cases emitBlock { evaluator, mixins, options } root (startState options) <;> rfl
    | true => exact bind_run_ok (write_run _ _)
  cases hb : emitBlock { evaluator, mixins, options } root (startState options) with
  | error d =>
    rw [hb] at ht
    exact generate_of_error ht
  | ok result =>
    rw [hb] at ht
    exact generate_of_ok ht

end Program
end PugTemplate
