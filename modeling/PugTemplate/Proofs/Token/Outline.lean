import PugTemplate.Proofs.Token.Naming
import PugTemplate.Proofs.Token.Offside
/-!
# Tokens of outlines

An outline is a text of plain tags: one on a line, with classes, an id and text, and indented by
spaces. The lexer reads it as the tokens of its entries, with an indentation around what stands
below an entry.
-/

namespace PugTemplate

open List Pattern Setting

/-! ## Entries -/

def Pattern.isDelimiter (c : Char) : Bool :=
  c == '.' || c == '#' || c == ' ' || c == '\n' || c == '(' || c == ']'

/-- A character of a text that stays on its line and into which nothing is interpolated. -/
def Pattern.isPlainText (c : Char) : Bool :=
  c != '#' && c != '!' && c != '\\' && c != '\n' && c != '\r'

/-- A line of an outline: a tag with classes, an id and text. -/
structure Entry where
  name : String
  classes : List String := []
  id : Option String := none
  text : Option String := none
  /-- The whole name is that of a tag. -/
  name_tag : Pattern.tagName? name.toList = some name.toList := by decide
  /-- The name starts with no keyword. -/
  name_plain : ∀ word ∈ keywords, Pattern.afterWord? word name.toList = none := by decide
  /-- The whole of each class is the name of one. -/
  classes_names : ∀ c ∈ classes, Pattern.className? c.toList = some c.toList := by decide
  /-- The id is made of letters, digits, underscores and dashes. -/
  id_name : ∀ i ∈ id, Pattern.name? i.toList = some i.toList := by decide
  /-- A text has at least one character. -/
  text_ne : ∀ t ∈ text, t.toList ≠ [] := by decide
  /-- A text has plain characters only. -/
  text_plain : ∀ t ∈ text, t.toList.all Pattern.isPlainText = true := by decide

namespace Entry

/-- A part that may be missing, after its mark. -/
def marked (mark : Char) (part : Option String) : List Char :=
  part.elim [] fun s => mark :: s.toList

def line (e : Entry) : List Char :=
  e.name.toList ++ (e.classes.flatMap fun c => '.' :: c.toList) ++ marked '#' e.id ++
    marked ' ' e.text

def kinds (e : Entry) : List TokenKind :=
  .tag e.name :: e.classes.map .class ++ (e.id.map .id).toList ++ (e.text.map .text).toList

end Entry

/-! ## Outlines -/

def isBlankLine (line : List Char) : Bool := line.all Pattern.isGap

def writtenLine (line : Nat × Entry) : List Char := List.replicate line.1 ' ' ++ line.2.line

def lineKinds (line : Nat × Entry) : Nat × List TokenKind := (line.1, line.2.kinds)

/-- Entries under each other, each with an outline below it. The entries below one are indented by
at least one more space than it; `step` are the others. -/
inductive Outline where
  | empty
  | entry (head : Entry) (step : Nat) (below next : Outline)

namespace Outline

def inner (w step : Nat) : Nat := w + step + 1

/-- The lines of an outline whose first entries have a width. -/
def lines : Nat → Outline → List (Nat × Entry)
  | _, .empty => []
  | w, .entry head step below next =>
    (w, head) :: (below.lines (inner w step) ++ next.lines w)

/-- The widths that the lines of an outline leave open. -/
def opened (o : Outline) : List Nat := ((o.lines 0).map (·.1)).foldl indentsAfter []

def isEmpty : Outline → Bool
  | .empty => true
  | .entry _ _ _ _ => false

@[simp] theorem isEmpty_empty : empty.isEmpty = true := rfl

theorem eq_empty {o : Outline} (h : o.isEmpty) : o = .empty := by
  cases o with
  | empty => rfl
  | entry => exact absurd h (by simp [isEmpty])

/-- The tokens of an outline, from its first entry on. An entry without anything below it is
separated from the next one by the end of its line; some more tokens may stand behind the last entry.
-/
def kinds : List TokenKind → Nat → Outline → List TokenKind
  | _, _, .empty => []
  | last, w, .entry head step below next =>
    head.kinds ++ (if below.isEmpty then if next.isEmpty then last else [.newline]
        else .indent (inner w step) ::
          below.kinds (if next.isEmpty then last else []) (inner w step) ++ [.outdent]) ++
      next.kinds last w

end Outline

/-! ## Entries under the lexer -/

namespace Setting

variable {env : Setting} {cs more : List Char} {indents : List Nat} {cells others : List Cell}
  {name : String}

def Delimited (cs : List Char) : Prop := ∀ c ∈ cs.head?, Pattern.isDelimiter c = true

theorem Delimited.head {p : Char → Bool} (h : Delimited cs)
    (hp : ['.', '#', ' ', '\n', '(', ']'].all (!p ·) = true) : ∀ c ∈ cs.head?, p c = false := by
  intro c hc
  have hd := h c hc
  simp only [isDelimiter, Bool.or_eq_true, beq_iff_eq] at hd
  exact Bool.not_eq_true' _ ▸ all_eq_true.mp hp c (by simpa [or_assoc] using hd)

theorem Delimited.append (hc : Delimited cs) (hm : Delimited more) : Delimited (cs ++ more) := by
  cases cs with
  | nil => exact hm
  | cons c cs => exact hc

theorem delimited_of_break (hm : ∀ c ∈ more.head?, c = '\n') : Delimited more := by
  intro c hc
  rw [hm c hc]
  rfl

theorem delimited_classes (classes : List String) :
    Delimited (classes.flatMap fun c => '.' :: c.toList) := by
  cases classes with
  | nil => exact fun c hc => absurd hc (by simp)
  | cons name classes => exact fun c hc => by rw [← Option.some.inj hc]; rfl

theorem delimited_marked {mark : Char} (hm : isDelimiter mark)
    (part : Option String) : Delimited (Entry.marked mark part) := by
  cases part with
  | none => exact fun c hc => absurd hc (by simp [Entry.marked])
  | some s => exact fun c hc => by rw [← Option.some.inj hc]; exact hm

/-- A plain text ends where its line does, and nothing is interpolated into it. -/
theorem line_of_isPlainText {text : List Char} (hp : text.all isPlainText)
    (hm : ∀ c ∈ more.head?, c = '\n') :
    line (text ++ more) = text ∧ ∀ c ∈ text, c ≠ '#' ∧ c ≠ '!' ∧ c ≠ '\\' := by
  have hch : ∀ c ∈ text, c ≠ '#' ∧ c ≠ '!' ∧ c ≠ '\\' ∧ c ≠ '\n' ∧ c ≠ '\r' := by
    simpa [isPlainText, and_assoc] using hp
  refine ⟨takeWhile_append_eq (takeWhile_eq_self_iff.mpr ?_) ?_, ?_⟩
  · intro c hc
    simpa [isOnLine] using (hch c hc).2.2.2.1
  · intro c hc
    rw [hm c hc]
    rfl
  · exact fun c hc => ⟨(hch c hc).1, (hch c hc).2.1, (hch c hc).2.2.1⟩

/-- Cells that something follows are read as their tokens, wherever they stand. -/
def Reads (env : Setting) (cells : List Cell) (more : List Char) : Prop :=
  ∀ (indents : List Nat) (p : Position),
    env.Places ⟨Cell.line cells ++ more, indents, p⟩ (Cell.tokens p cells)
      ⟨more, indents, p.right (Cell.line cells).length⟩

theorem Reads.nil : env.Reads [] more := fun _ _ => .refl

theorem Reads.append (h : env.Reads cells (Cell.line others ++ more)) (h' : env.Reads others more) :
    env.Reads (cells ++ others) more := by
  intro indents p
  have hr : (p.right (Cell.line cells).length).right (Cell.line others).length =
      p.right (Cell.line (cells ++ others)).length := by
    simp [Position.right, Cell.line_append, Nat.add_assoc]
  have hb := (h indents p).trans (h' indents (p.right (Cell.line cells).length))
  rwa [hr, ← Cell.tokens_append, ← append_assoc, ← Cell.line_append] at hb

theorem Reads.step (hh : env.hooks = []) (hn : Cell.line cells ≠ [])
    (h : ∀ s : Lexer, s.rest = Cell.line cells ++ more →
      env.advance s = .ok (true, { s with rest := more }.past cells)) : env.Reads cells more := by
  intro indents p
  have hl : more.length < (Cell.line cells ++ more).length := by
    have hp := length_pos_iff.mpr hn
    rw [length_append]
    omega
  refine .step hh hl fun s tokens hs => ?_
  exact ⟨_, h s hs.rest_eq, hs.past cells⟩

theorem Reads.lexes (h : env.Reads cells more) (indents : List Nat) :
    env.Lexes (Cell.line cells ++ more) indents (cells.map (·.kind)) more indents := by
  intro s p tokens n hs hn
  rw [← Cell.kinds_tokens p cells]
  exact (h indents p).lexes hs hn

theorem reads_tag (hh : env.hooks = []) (hn : isFreeName name.toList)
    (hm : Delimited more) : env.Reads [{ kind := .tag name }] more := by
  have hc : Cell.line [{ kind := .tag name }] = name.toList := append_nil _
  have hne : Cell.line [{ kind := .tag name }] ≠ [] := by
    rw [hc]
    intro hni
    rw [hni] at hn
    exact absurd hn (by decide)
  refine .step hh hne fun s hr => ?_
  rw [← Lexer.consume_past hr rfl, Lexer.past_single, hc]
  rw [hc] at hr
  rw [advance_freeName hh hr hn (hm.head (by decide)), String.ofList_toList]
  rfl

theorem reads_class (hh : env.hooks = [])
    (hn : className? name.toList = some name.toList) (hm : Delimited more) :
    env.Reads [{ kind := .class name }] more := by
  have hc : Cell.line [{ kind := .class name }] = '.' :: name.toList := append_nil _
  refine .step hh (by rw [hc]; simp) fun s hr => ?_
  rw [← Lexer.consume_past hr rfl, Lexer.past_single, hc]
  rw [hc] at hr
  rw [advance_className hh hr (className?_append hn (hm.head (by decide))), String.ofList_toList]
  rfl

theorem reads_text (hh : env.hooks = []) (hi : env.interpolated = false)
    {text : String} (ht : text.toList ≠ [])
    (hp : text.toList.all isPlainText) (hmo : ∀ c ∈ more.head?, c = '\n') :
    env.Reads [{ gap := 1, kind := .text text }] more := by
  have hc : Cell.line [{ gap := 1, kind := .text text }] = ' ' :: text.toList := append_nil _
  obtain ⟨hl, hm⟩ := line_of_isPlainText hp hmo
  refine .step hh (by rw [hc]; simp) fun s hr => ?_
  rw [← Lexer.consume_past hr rfl, Lexer.past_gap, Lexer.past_single, hc]
  rw [hc] at hr
  rw [advance_text hh hi hr hl ht hm, Nat.add_comm 1]
  show Except.ok (true, Lexer.advanceColumn (Lexer.push _ (.text (String.ofList _))) _) = _
  rw [String.ofList_toList]
  rfl

theorem reads_classes (hh : env.hooks = []) {classes : List String}
    (hc : ∀ c ∈ classes, className? c.toList = some c.toList)
    (hm : Delimited more) : env.Reads (classes.map fun c => { kind := .class c }) more := by
  induction classes with
  | nil => exact .nil
  | cons name classes ih =>
    obtain ⟨hn, hc⟩ := forall_mem_cons.mp hc
    have hr : Delimited (Cell.line (classes.map fun c => { kind := .class c }) ++ more) := by
      rw [Cell.line_classes]
      exact (delimited_classes classes).append hm
    exact (reads_class hh hn hr).append (ih hc)

theorem lexes_idName (hh : env.hooks = []) (indents : List Nat)
    (hn : name? name.toList = some name.toList) (hm : Delimited more) :
    env.Lexes ('#' :: (name.toList ++ more)) indents [.id name] more indents := by
  have hhe := hm.head (p := Pattern.isNamePart) (by decide)
  have hsh : more.length < ('#' :: (name.toList ++ more)).length := by
    rw [length_cons, length_append]
    omega
  refine .step hh hsh fun s p tokens hs => ?_
  have ha := advance_idName hh hs.rest_eq (name?_append hn hhe)
  rw [String.ofList_toList] at ha
  exact ⟨_, _, _, ha, (hs.push _).consume drop_left, rfl⟩

/-- **The tokens of an entry.** An entry that ends its line is read as its tokens. -/
theorem lexes_entry (hh : env.hooks = []) (hi : env.interpolated = false)
    (indents : List Nat) (e : Entry) (hm : ∀ c ∈ more.head?, c = '\n') :
    env.Lexes (e.line ++ more) indents e.kinds more indents := by
  have ht : env.Lexes (Entry.marked ' ' e.text ++ more) indents (e.text.map .text).toList more
      indents := by
    cases ht : e.text with
    | none => exact .refl
    | some t =>
      have hr := reads_text hh hi (e.text_ne t ht) (e.text_plain t ht) hm
      have hce : Cell.line [{ gap := 1, kind := .text t }] = Entry.marked ' ' (some t) :=
        append_nil _
      rw [← hce]
      exact hr.lexes indents
  have haf : Delimited (Entry.marked ' ' e.text ++ more) :=
    (delimited_marked rfl e.text).append (delimited_of_break hm)
  have hid : env.Lexes (Entry.marked '#' e.id ++ (Entry.marked ' ' e.text ++ more)) indents
      (e.id.map .id).toList (Entry.marked ' ' e.text ++ more) indents := by
    cases hid : e.id with
    | none => exact .refl
    | some i => exact lexes_idName hh indents (e.id_name i hid) haf
  have ha : Delimited (Entry.marked '#' e.id ++ (Entry.marked ' ' e.text ++ more)) :=
    (delimited_marked rfl e.id).append haf
  have hc := reads_classes hh e.classes_names ha
  have hd := (delimited_classes e.classes).append ha
  rw [← Cell.line_classes] at hd
  have hta := reads_tag hh (isFreeName_of_plain e.name_tag e.name_plain) hd
  have hal := ((hta.append hc).lexes indents).trans (hid.trans ht)
  simpa [Entry.line, Entry.kinds, Cell.line_classes, Cell.text, Cell.spelling,
    TokenKind.spelling?, Function.comp_def] using hal

/-! ## Lines under the lexer -/

theorem isGap_of_isPlainWord {c : Char} (hc : isPlainWord c) : isGap c = false ∧ c ≠ '\n' := by
  have hn : ∀ d, isPlainWord d = false → c ≠ d := by
    rintro d hd rfl
    rw [hc] at hd
    exact absurd hd (by simp)
  exact ⟨by simp [isGap, hn ' ' rfl, hn '\t' rfl], hn '\n' rfl⟩

theorem head_line (e : Entry) (more : List Char) :
    ∃ c tail, e.line ++ more = c :: tail ∧ isPlainWord c := by
  obtain ⟨c, cs, hn, hc, -⟩ := of_tagName?_eq e.name_tag
  exact ⟨c, _, by rw [Entry.line, hn]; rfl, hc⟩

theorem head_flatMap (lines : List (List Char)) :
    ∀ c ∈ (lines.flatMap ('\n' :: ·)).head?, c = '\n' := by
  cases lines with
  | nil => exact fun c hc => absurd hc (by simp)
  | cons line lines => exact fun c hc => (Option.some.inj hc).symm

def lastLine (lines : List (List Char)) : List (Nat × List TokenKind) :=
  ((lines.getLast?.filter isBlankLine).map fun _ => (0, [])).toList

/-- **The tokens of lines.** Blank lines do not count, but for one at the end. -/
theorem comes_lines (hh : env.hooks = []) (hi : env.interpolated = false)
    (hin : indents.Pairwise (· > ·)) {lines : List (List Char)} {outline : List (Nat × Entry)}
    (hl : lines.filter (fun line => !isBlankLine line) = outline.map writtenLine)
    (hla : ∀ line ∈ lines.getLast?, isBlankLine line → line = []) :
    env.Comes (lines.flatMap ('\n' :: ·)) indents
      ((offside? indents (outline.map lineKinds ++ lastLine lines)).map (· ++ [.eos])) := by
  induction lines generalizing indents outline with
  | nil =>
    obtain rfl : outline = [] := map_eq_nil_iff.mp hl.symm
    exact comes_nil hh hi indents
  | cons line lines ih =>
    by_cases hb : isBlankLine line
    · rw [filter_cons_of_neg (by simpa using hb)] at hl
      cases lines with
      | nil =>
        -- What stands behind the last line break is the start of one more line.
        obtain rfl : outline = [] := map_eq_nil_iff.mp hl.symm
        obtain rfl := hla line rfl hb
        have hend := comes_nil hh hi (indentsAfter indents 0)
        have hn : ∀ c ∈ ([] : List Char).head?, isGap c = false ∧ c ≠ '\n' := by simp
        simpa [lastLine, Option.filter, isBlankLine] using comes_line hh hin hn .refl hend
      | cons next lines =>
        have hs : env.Lexes ((line :: next :: lines).flatMap ('\n' :: ·)) indents []
            ((next :: lines).flatMap ('\n' :: ·)) indents := lexes_blank hh hb
        have hr := hs.comes (ih hin hl hla)
        simpa only [nil_append, Option.map_id', lastLine, getLast?_cons_cons] using hr
    · rw [filter_cons_of_pos (by simpa using hb)] at hl
      cases outline with
      | nil => cases hl
      | cons first outline =>
        obtain ⟨w, e⟩ := first
        obtain ⟨rfl, ht⟩ := cons.inj hl
        have hhe : ∀ c ∈ (e.line ++ lines.flatMap ('\n' :: ·)).head?,
            isGap c = false ∧ c ≠ '\n' := by
          obtain ⟨d, tail, hli, hd⟩ := head_line e (lines.flatMap ('\n' :: ·))
          intro c hc
          rw [hli] at hc
          obtain rfl : d = c := Option.some.inj hc
          exact isGap_of_isPlainWord hd
        have hsa : lastLine (writtenLine (w, e) :: lines) = lastLine lines := by
          cases lines with
          | nil => simp [lastLine, Option.filter, hb]
          | cons next lines => rw [lastLine, getLast?_cons_cons, lastLine]
        have hr := ih (pairwise_indentsAfter hin w) ht fun last hm => hla last (by
          cases lines with
          | nil => cases hm
          | cons next lines => rwa [getLast?_cons_cons])
        have hen :=
          lexes_entry hh hi (indentsAfter indents w) e (head_flatMap lines)
        have ha := comes_line hh hin hhe hen hr
        rwa [flatMap_cons, writtenLine, cons_append, append_assoc, ← writtenLine, hsa]

/-- **Outlines and the offside rule.** After the start of its first line, an outline is read as its
tokens, but for the ends of what it leaves open. -/
theorem opens_outline (o : Outline) (ho : o.isEmpty = false) {w : Nat} (hw : indents.headD 0 = w)
    {before : List Nat} (hb : indentsAfter before w = indents) :
    ∃ opened front, (∀ v ∈ opened, w < v) ∧
      Opens before ((o.lines w).map lineKinds) (lineStart before w ++ front) (opened ++ indents) ∧
      ∀ last, front ++ last ++ opened.map (fun _ => .outdent) = o.kinds last w := by
  induction o generalizing indents w before with
  | empty => exact absurd ho (by simp [Outline.isEmpty])
  | entry head step below next ihbelow ihnext =>
    have hf := @Opens.line before w (by rw [hb, hw]) head.kinds
    rw [hb] at hf
    -- What stands below the first line leaves widths open, which the next entry closes.
    let inside (last : List TokenKind) : List TokenKind :=
      .indent (Outline.inner w step) :: below.kinds last (Outline.inner w step) ++ [.outdent]
    obtain ⟨opened, front, hop, hbe, hk, hc⟩ : ∃ opened front, (∀ v ∈ opened, w < v) ∧
        Opens indents ((below.lines (Outline.inner w step)).map lineKinds) front
          (opened ++ indents) ∧
        (∀ last, front ++ last ++ opened.map (fun _ => .outdent) =
          if below.isEmpty then last else inside last) ∧
        front ++ lineStart (opened ++ indents) w =
          if below.isEmpty then [.newline] else inside [] := by
      cases hem : below.isEmpty with
      | true =>
        obtain rfl := Outline.eq_empty hem
        exact ⟨[], [], by simp, .refl, by simp, lineStart_same hw⟩
      | false =>
        have hi : w < Outline.inner w step := by unfold Outline.inner; omega
        have hope : indents.headD 0 < Outline.inner w step := hw.trans_lt hi
        obtain ⟨opened, front, hop, hl, hk⟩ :=
          ihbelow hem headD_cons (indentsAfter_open hope)
        rw [lineStart_open hope] at hl
        have hwi : ∀ v ∈ opened ++ [Outline.inner w step], w < v :=
          forall_mem_append.mpr ⟨fun v hv => hi.trans (hop v hv), by simpa using hi⟩
        refine ⟨opened ++ [Outline.inner w step], .indent (Outline.inner w step) :: front, hwi, ?_,
          fun last => ?_, ?_⟩
        · simpa using hl
        · simp [inside, ← hk last]
        · rw [lineStart_close (by simp) hwi hw]
          simp [inside, ← hk []]
    cases hn : next.isEmpty with
    | true =>
      obtain rfl := Outline.eq_empty hn
      refine ⟨opened, head.kinds ++ front, hop, ?_, fun last => ?_⟩
      · simpa [Outline.lines, lineKinds] using hf.trans hbe
      · rw [append_assoc, append_assoc, ← append_assoc front, hk last]
        simp [Outline.kinds, inside]
    | false =>
      obtain ⟨opened', front', ho', hl, hk'⟩ :=
        ihnext hn hw (indentsAfter_close hop hw)
      refine ⟨opened', head.kinds ++ (front ++ lineStart (opened ++ indents) w) ++ front', ho',
        ?_, fun last => ?_⟩
      · simpa [Outline.lines, lineKinds] using hf.trans (hbe.trans hl)
      · rw [hc, append_assoc, append_assoc, ← append_assoc front', hk' last]
        simp [Outline.kinds, hn, inside]

end Setting

/-! ## Texts of outlines -/

def joinLines (lines : List (List Char)) : String := String.ofList (['\n'].intercalate lines)

/-- Lines that show an outline: its own lines, with blank ones between them. The last of them may be
ended by a line break. -/
structure Outline.Shows (o : Outline) (lines : List (List Char)) : Prop where
  printed : lines.filter (fun line => !isBlankLine line) = (o.lines 0).map writtenLine
  first : ∀ line ∈ lines.head?, isBlankLine line = false
  last : ∀ line ∈ lines.getLast?, isBlankLine line = true → line = []

variable {o : Outline} {lines : List (List Char)}

theorem toList_joinLines_cons (line : List Char) (lines : List (List Char)) :
    (joinLines (line :: lines)).toList = line ++ lines.flatMap ('\n' :: ·) := by
  rw [joinLines]
  induction lines generalizing line with
  | nil => simp [intercalate]
  | cons next lines ih =>
    rw [flatMap_cons, cons_append, ← ih next]
    simp [intercalate]

theorem unifyLineEnds_eq {cs : List Char} (h : '\r' ∉ cs) : unifyLineEnds cs = cs := by
  induction cs with
  | nil => rfl
  | cons c cs ih =>
    obtain ⟨hc, hcs⟩ := ne_and_not_mem_of_not_mem_cons h
    simp [unifyLineEnds, Ne.symm hc, ih hcs]

namespace Entry

theorem not_mem_marked {mark : Char} {part : Option String} (hm : '\r' ≠ mark)
    (hp : ∀ s ∈ part, '\r' ∉ s.toList) : '\r' ∉ marked mark part := by
  cases part with
  | none => exact not_mem_nil
  | some s => exact not_mem_cons_of_ne_of_not_mem hm (hp s rfl)

theorem not_mem_line (e : Entry) : '\r' ∉ e.line := by
  have hn : '\r' ∉ e.name.toList := fun h =>
    absurd (isTagPart_of_mem e.name_tag h) (by decide)
  have hcl : '\r' ∉ e.classes.flatMap fun c => '.' :: c.toList := by
    intro h
    obtain ⟨c, hc, h⟩ := mem_flatMap.mp h
    rcases mem_cons.mp h with h | h
    · exact absurd h (by decide)
    · exact absurd (isClassPart_of_mem (e.classes_names c hc) h) (by decide)
  have hid : '\r' ∉ marked '#' e.id := not_mem_marked (by decide) fun i hi h =>
    absurd (isNamePart_of_mem (e.id_name i hi) h) (by decide)
  have hte : '\r' ∉ marked ' ' e.text := not_mem_marked (by decide) fun t ht h =>
    absurd (all_eq_true.mp (e.text_plain t ht) _ h) (by decide)
  simp [line, hn, hcl, hid, hte]

end Entry

theorem normalize_eq {source : String} {c : Char} {tail : List Char}
    (hs : source.toList = c :: tail) (hc : isPlainWord c)
    (hr : '\r' ∉ source.toList) : normalize source = source.toList := by
  have hm : c ≠ '\uFEFF' := by
    rintro rfl
    exact absurd hc (by decide)
  have hd : dropMark (c :: tail) = c :: tail := by
    simp [dropMark, hm]
  rw [normalize, hs, hd, unifyLineEnds_eq (hs ▸ hr)]

namespace Outline.Shows

variable {o : Outline} {line : List Char} {lines : List (List Char)}

theorem not_mem (h : o.Shows lines) : ∀ line ∈ lines, '\r' ∉ line := by
  intro line hl
  cases hb : isBlankLine line with
  | true =>
    intro hm
    exact absurd (all_eq_true.mp hb _ hm) (by decide)
  | false =>
    have hm : line ∈ (o.lines 0).map writtenLine := by
      rw [← h.printed]
      exact mem_filter.mpr ⟨hl, by simp [hb]⟩
    obtain ⟨⟨w, e⟩, -, rfl⟩ := mem_map.mp hm
    simp [writtenLine, e.not_mem_line]

theorem eq_cons (h : o.Shows (line :: lines)) : ∃ head step below next,
    o = .entry head step below next ∧ line = head.line ∧
      lines.filter (fun line => !isBlankLine line) =
        (below.lines (inner 0 step) ++ next.lines 0).map writtenLine := by
  have hp := h.printed
  rw [filter_cons_of_pos (by simp [h.first line rfl])] at hp
  cases o with
  | empty => exact absurd hp (cons_ne_nil _ _)
  | entry head step below next =>
    obtain ⟨hli, hl⟩ := cons.inj hp
    exact ⟨head, step, below, next, rfl, hli, hl⟩

/-- **The tokens of an outline.** The lexer reads the lines as the tokens of the outline, with what a
blank line at the end comes to before the ends of what is open. -/
theorem comesTo (h : o.Shows (line :: lines)) (file : Option String) (validator : Validator) :
    ∃ front, (∀ last, front ++ last ++ o.opened.map (fun _ => .outdent) = o.kinds last 0) ∧
      ComesTo ((offside? o.opened (lastLine lines)).map (front ++ · ++ [.eos]))
        (tokenize { file, validator } (joinLines (line :: lines))) := by
  let env : Setting := ({ file, validator } : Setting).nesting maxInterpolationDepth
  have hh : env.hooks = [] := hooks_nesting _ _
  have hi : env.interpolated = false := interpolated_nesting _ _
  have hr : '\r' ∉ (joinLines (line :: lines)).toList := by
    have hl := h.not_mem
    simp only [mem_cons, forall_eq_or_imp] at hl
    rw [toList_joinLines_cons]
    simpa using ⟨hl.1, hl.2⟩
  have hla : ∀ last ∈ lines.getLast?, isBlankLine last → last = [] := by
    cases lines with
    | nil => exact fun _ hm => absurd hm (by simp)
    | cons next lines => exact h.last
  obtain ⟨head, step, below, next, rfl, rfl, hl⟩ := h.eq_cons
  obtain ⟨opened, front, -, ho, hk⟩ :=
    @opens_outline [] (.entry head step below next) rfl 0 rfl [] rfl
  obtain rfl : opened = (entry head step below next).opened := by
    simpa [Outline.opened, lineKinds, Function.comp_def] using ho.widths.symm
  refine ⟨front, hk, ?_⟩
  have hen := lexes_entry hh hi [] head (head_flatMap lines)
  have hco := hen.comes (comes_lines hh hi .nil hl hla)
  obtain ⟨c, tail, ht, hc⟩ := head_line head (lines.flatMap ('\n' :: ·))
  rw [← toList_joinLines_cons] at ht hco
  rw [← normalize_eq ht hc hr] at hco
  have hou := hco.tokenize
  -- The first line has no line break before it.
  have hf : offside? [] (((entry head step below next).lines 0).map lineKinds ++
      lastLine lines) = (offside? [] ((below.lines (inner 0 step) ++ next.lines 0).map
        lineKinds ++ lastLine lines)).map (.newline :: head.kinds ++ ·) :=
    (Opens.line rfl head.kinds).offside _
  have hof := congrArg (Option.map fun kinds => kinds.tail ++ [.eos])
    (hf.symm.trans (ho.offside (lastLine lines)))
  refine Eq.subst (motive := fun kinds? => ComesTo kinds? _) ?_ hou
  simpa [Function.comp_def, lineStart] using hof

/-- **The tokens of an outline.** A text that shows an outline is read as its tokens; there may be
the end of a line before the end of the text. -/
theorem tokenize (h : o.Shows lines) (file : Option String) (validator : Validator) :
    ∃ tokens last, PugTemplate.tokenize { file, validator } (joinLines lines) = .ok tokens ∧
      Idle last ∧ tokens.map Token.kind = o.kinds last 0 ++ [.eos] := by
  cases lines with
  | nil =>
    obtain rfl : o = .empty := by
      cases o with
      | empty => rfl
      | entry => exact absurd h.printed (cons_ne_nil _ _).symm
    exact ⟨[⟨.eos, ⟨1, 1⟩⟩], [], Concludes.tokenize (ends_nil
      (hooks_nesting _ _) (interpolated_nesting _ _) [] ⟨1, 1⟩), .nil, rfl⟩
  | cons line lines =>
    obtain ⟨front, hk, hc⟩ := h.comesTo file validator
    obtain ⟨last, hi, ho⟩ : ∃ last, Idle last ∧ offside? o.opened (lastLine lines) =
        some (last ++ o.opened.map fun _ => .outdent) := by
      rw [lastLine]
      cases lines.getLast?.filter isBlankLine with
      | none => exact ⟨[], .nil, rfl⟩
      | some blank => exact ⟨_, idle_lastBreak _ _, offside?_lastBreak (headD_indentsAfter_zero _)⟩
    rw [ho] at hc
    cases ht : PugTemplate.tokenize { file, validator } (joinLines (line :: lines)) with
    | error d =>
      rw [ht] at hc
      exact absurd hc.1 (by simp)
    | ok tokens =>
      rw [ht] at hc
      refine ⟨tokens, last, rfl, hi, ?_⟩
      rw [← Option.some.inj hc, ← hk last, append_assoc front]

end Outline.Shows
end PugTemplate
