import PugTemplate.Proofs.Token.AttributeLists
import PugTemplate.Proofs.Token.Outline
/-!
# Lines of tags under the lexer

Templates of plain lines: each is a tag with classes, a list of quoted attributes and a text. The
lexer reads such a line as its tokens. So the widths of the lines alone settle what a template comes
to, with its tokens in their places or with the first line that is out of place.
-/

namespace PugTemplate

open List Pattern Setting

/-! ## Lines of tags -/

def QuotedAttribute.written (a : QuotedAttribute) : List Char :=
  a.name.toList ++ '=' :: '\'' :: (a.value.toList ++ ['\''])

/-- A tag with classes, a list of attributes and a text. -/
structure TagLine where
  name : String
  classes : List String := []
  attributes : Option (List QuotedAttribute) := none
  text : Option String := none
  /-- No rule for a keyword reads the name. -/
  name_free : Pattern.isFreeName name.toList = true := by decide +kernel
  /-- The whole of each class is the name of one. -/
  classes_names : ∀ c ∈ classes, Pattern.className? c.toList = some c.toList := by decide +kernel
  /-- A text has at least one character. -/
  text_ne : ∀ t ∈ text, t.toList ≠ [] := by decide
  /-- A text has plain characters only. -/
  text_plain : ∀ t ∈ text, t.toList.all Pattern.isPlainText = true := by decide +kernel

namespace TagLine

def written (l : TagLine) : List Char :=
  l.name.toList ++ (l.classes.flatMap fun c => '.' :: c.toList) ++
    (l.attributes.elim [] fun as => '(' :: ([' '].intercalate (as.map (·.written)) ++ [')'])) ++
    l.text.elim [] fun t => ' ' :: t.toList

def details (l : TagLine) : List Cell :=
  (l.classes.map fun c => { kind := .class c }) ++ l.attributes.elim [] Setting.listCells ++
    l.text.elim [] fun t => [{ gap := 1, kind := .text t }]

def kinds (l : TagLine) : List TokenKind := .tag l.name :: l.details.map (·.kind)

/-- The line in cells, with the spaces before it. -/
def cells (w : Nat) (l : TagLine) : List Cell := { gap := w, kind := .tag l.name } :: l.details

end TagLine

def writtenTag (line : Nat × TagLine) : List Char := List.replicate line.1 ' ' ++ line.2.written

theorem TagLine.kinds_cells (w : Nat) (l : TagLine) : (l.cells w).map (·.kind) = l.kinds := rfl

theorem QuotedAttribute.line_cells (as : List QuotedAttribute) :
    Cell.line (cells as) = [' '].intercalate (as.map (·.written)) := by
  have hs (a : QuotedAttribute) (gap : Nat) :
      Cell.text { gap, kind := a.kind } = replicate gap ' ' ++ a.written := by
    rw [Cell.text, a.spelling_kind, a.toList_literal]
    rfl
  cases as with
  | nil => rfl
  | cons a as =>
    rw [cells, Cell.line_cons, hs]
    induction as generalizing a with
    | nil => simp [intercalate]
    | cons b as ih =>
      have hr := ih b
      rw [map_cons, Cell.line_cons, hs]
      simp only [intercalate, map_cons, intersperse_cons_cons, flatten_cons] at hr ⊢
      rw [← hr]
      simp

theorem TagLine.line_cells (w : Nat) (l : TagLine) : Cell.line (l.cells w) = writtenTag (w, l) := by
  have ha : Cell.line (l.attributes.elim [] listCells) = l.attributes.elim [] fun as =>
        '(' :: ([' '].intercalate (as.map (·.written)) ++ [')']) := by
    cases l.attributes with
    | none => rfl
    | some as =>
      show Cell.line (listCells as) = _
      rw [← append_nil (Cell.line _), line_listCells, QuotedAttribute.line_cells]
      rfl
  have ht : Cell.line (l.text.elim [] fun t => [{ gap := 1, kind := .text t }]) =
      l.text.elim [] fun t => ' ' :: t.toList := by
    cases l.text with
    | none => rfl
    | some t =>
      show Cell.text _ ++ [] = _
      rw [append_nil]
      rfl
  rw [cells, Cell.line_cons, details, Cell.line_append, Cell.line_append, Cell.line_classes, ha,
    ht, writtenTag, written]
  show (replicate w ' ' ++ l.name.toList) ++ _ = _
  simp only [append_assoc]

theorem TagLine.isSome_spelling? (w : Nat) (l : TagLine) :
    ∀ c ∈ l.cells w, c.kind.spelling?.isSome := by
  have hcl : ∀ c ∈ l.classes.map fun c => ({ kind := .class c } : Cell),
      c.kind.spelling?.isSome := forall_mem_map.mpr fun _ _ => rfl
  have ha : ∀ c ∈ l.attributes.elim [] listCells, c.kind.spelling?.isSome := by
    cases l.attributes with
    | none => exact fun c hc => absurd hc not_mem_nil
    | some as => exact isSome_spelling?_listCells as
  have ht : ∀ c ∈ l.text.elim [] fun t => [({ gap := 1, kind := .text t } : Cell)],
      c.kind.spelling?.isSome := by
    cases l.text with
    | none => exact fun c hc => absurd hc not_mem_nil
    | some t => exact forall_mem_singleton.mpr rfl
  refine forall_mem_cons.mpr ⟨rfl, ?_⟩
  exact forall_mem_append.mpr ⟨forall_mem_append.mpr ⟨hcl, ha⟩, ht⟩

/-! ## Lines under the lexer -/

theorem TagLine.head_written (l : TagLine) (more : List Char) :
    ∃ c tail, l.written ++ more = c :: tail ∧ isPlainWord c := by
  have hf := l.name_free
  simp only [isFreeName, Bool.and_eq_true, beq_iff_eq] at hf
  obtain ⟨c, cs, hn, hc, -⟩ := of_tagName?_eq hf.1.1.1.1
  exact ⟨c, _, by rw [written, hn]; rfl, hc⟩

namespace Setting

variable {env : Setting} {more : List Char}

theorem reads_attributes (hh : env.hooks = []) {as : List QuotedAttribute}
    (hv : ∀ a ∈ as, env.validator a.literal = none) : env.Reads (listCells as) more := by
  refine .step hh ?_ fun s hr => advance_attributes hh hr hv
  exact cons_ne_nil _ _

theorem reads_details (hh : env.hooks = []) (hi : env.interpolated = false)
    (l : TagLine) (hv : ∀ a ∈ l.attributes.getD [], env.validator a.literal = none)
    (hm : ∀ c ∈ more.head?, c = '\n') :
    env.Reads l.details more ∧ Delimited (Cell.line l.details ++ more) := by
  unfold TagLine.details
  generalize hte : (l.text.elim [] fun t => [({ gap := 1, kind := .text t } : Cell)]) = texts
  generalize hli : l.attributes.elim [] listCells = lists
  have ht : env.Reads texts more ∧ Delimited (Cell.line texts ++ more) := by
    subst hte
    cases ht : l.text with
    | none => exact ⟨.nil, delimited_of_break hm⟩
    | some t =>
      refine ⟨reads_text hh hi (l.text_ne t ht) (l.text_plain t ht) hm, ?_⟩
      exact fun c hc => by rw [← Option.some.inj hc]; rfl
  have hl : env.Reads lists (Cell.line texts ++ more) ∧
      Delimited (Cell.line lists ++ (Cell.line texts ++ more)) := by
    subst hli
    cases hl : l.attributes with
    | none => exact ⟨.nil, ht.2⟩
    | some as =>
      rw [hl] at hv
      exact ⟨reads_attributes hh hv, fun c hc => by rw [← Option.some.inj hc]; rfl⟩
  have hcl := reads_classes hh l.classes_names hl.2
  have hf : Delimited (Cell.line (l.classes.map fun c => { kind := .class c }) ++
      (Cell.line lists ++ (Cell.line texts ++ more))) := by
    cases l.classes with
    | nil => exact hl.2
    | cons name classes => exact fun c hc => by rw [← Option.some.inj hc]; rfl
  simp only [Cell.line_append, append_assoc]
  rw [← append_assoc (Cell.line lists), ← Cell.line_append] at hcl
  exact ⟨hcl.append (hl.1.append ht.1), hf⟩

theorem reads_tagLine (hh : env.hooks = []) (hi : env.interpolated = false)
    (l : TagLine) (hv : ∀ a ∈ l.attributes.getD [], env.validator a.literal = none)
    (hm : ∀ c ∈ more.head?, c = '\n') : env.Reads (l.cells 0) more := by
  obtain ⟨hde, hd⟩ := reads_details hh hi l hv hm
  exact (reads_tag hh l.name_free hd).append hde

theorem places_line (hh : env.hooks = []) (hi : env.interpolated = false) (line : Nat × TagLine)
    (hv : ∀ a ∈ line.2.attributes.getD [], env.validator a.literal = none)
    {more : List Char} (hm : ∀ c ∈ more.head?, c = '\n') (indents : List Nat) (n : Nat) :
    ∃ p : Position, p.line = n ∧ env.Places ⟨line.2.written ++ more, indents, ⟨n, line.1 + 1⟩⟩
        (Cell.tokens ⟨n, 1⟩ (line.2.cells line.1)) ⟨more, indents, p⟩ := by
  have hr := reads_tagLine hh hi line.2 hv hm indents ⟨n, line.1 + 1⟩
  have ht : Cell.tokens ⟨n, line.1 + 1⟩ (line.2.cells 0) =
      Cell.tokens ⟨n, 1⟩ (line.2.cells line.1) := by
    rw [Nat.add_comm]
    exact (Cell.tokens_gap ⟨n, 1⟩ line.1 (.tag line.2.name) line.2.details).symm
  rw [TagLine.line_cells, ht] at hr
  exact ⟨_, rfl, hr⟩

end Setting

/-! ## What lines come to -/

/-- The tokens of a template that stand for something. -/
def templateTokens (n : Nat) (lines : List (Nat × TagLine)) : List Token :=
  Cell.sheet n (lines.map fun line => line.2.cells line.1)

/-- The kinds of the tokens of a template: those of its first line, which is not indented, and those
of the others by the offside rule. -/
def templateKinds? : List (Nat × TagLine) → Option (List TokenKind)
  | [] => some [.eos]
  | (_, l) :: lines =>
    (offside? [] (lines.map fun line => (line.1, line.2.kinds))).map (l.kinds ++ · ++ [.eos])

/-- What lines of some widths come to: tokens of these kinds, of which those that stand for something
are in these places, or a diagnostic about the first line that is out of place. -/
def Outcome (indents ws : List Nat) (kinds? : Option (List TokenKind)) (spelled : List Token)
    (n : Nat) : Except Diagnostic (List Token) → Prop
  | .ok new => isIndented indents ws = true ∧ kinds? = some (new.map Token.kind) ∧
      new.filter Token.isSpelled = spelled
  | .error d => d.Accuses indents ws n

theorem Outcome.cons {indents ws : List Nat} {w n : Nat} {kinds? : Option (List TokenKind)}
    {spelled : List Token} {out : Except Diagnostic (List Token)}
    (hi : indents.Pairwise (· > ·)) (hw : (indentsAfter indents w).headD 0 = w)
    (h : Outcome (indentsAfter indents w) ws kinds? spelled (n + 1) out) (front : List Token) :
    Outcome indents (w :: ws) (kinds?.map (front.map Token.kind ++ ·))
      (front.filter Token.isSpelled ++ spelled) n (out.map (front ++ ·)) := by
  cases out with
  | error d => exact Diagnostic.Accuses.cons hi hw h
  | ok new =>
    obtain ⟨hws, rfl, rfl⟩ := h
    refine ⟨?_, ?_, filter_append ..⟩
    · rw [isIndented, Bool.and_eq_true, beq_iff_eq]
      exact ⟨hw, hws⟩
    · exact congrArg some map_append.symm

theorem filter_lineStart {start : List Token} {indents : List Nat} {w : Nat}
    (h : start.map Token.kind = lineStart indents w) : start.filter Token.isSpelled = [] := by
  refine filter_eq_nil_iff.mpr fun t ht => ?_
  have hk : t.kind ∈ lineStart indents w := h ▸ mem_map_of_mem ht
  have hn : ∀ kind ∈ lineStart indents w, kind.spelling? = none := by
    unfold lineStart
    split
    · exact forall_mem_singleton.mpr rfl
    · split
      · exact forall_mem_map.mpr fun _ _ => rfl
      · exact forall_mem_singleton.mpr rfl
  simp [Token.isSpelled, hn _ hk]

namespace Setting

variable {env : Setting}

theorem ends_lines (hh : env.hooks = []) (hi : env.interpolated = false)
    {lines : List (Nat × TagLine)}
    (hv : ∀ line ∈ lines, ∀ a ∈ line.2.attributes.getD [], env.validator a.literal = none)
    {indents : List Nat} (hin : indents.Pairwise (· > ·)) (p : Position) :
    ∃ out, Outcome indents (lines.map (·.1))
        ((offside? indents (lines.map fun line => (line.1, line.2.kinds))).map (· ++ [.eos]))
        (templateTokens (p.line + 1) lines) (p.line + 1) out ∧
      env.Concludes ⟨(lines.map writtenTag).flatMap ('\n' :: ·), indents, p⟩ out := by
  induction lines generalizing indents p with
  | nil =>
    refine ⟨.ok _, ⟨rfl, ?_, ?_⟩, ends_nil hh hi indents p⟩
    · simp [offside?]
    · simp [templateTokens, Cell.sheet, Token.isSpelled, TokenKind.spelling?]
  | cons line lines ih =>
    obtain ⟨w, l⟩ := line
    obtain ⟨hli, hl⟩ := forall_mem_cons.mp hv
    have hhe : ∀ c ∈ (l.written ++ (lines.map writtenTag).flatMap ('\n' :: ·)).head?,
        isGap c = false ∧ c ≠ '\n' := by
      obtain ⟨d, tail, hcu, hd⟩ := l.head_written ((lines.map writtenTag).flatMap ('\n' :: ·))
      intro c hc
      rw [hcu] at hc
      obtain rfl : d = c := Option.some.inj hc
      exact isGap_of_isPlainWord hd
    have ht : templateTokens (p.line + 1) ((w, l) :: lines) =
        Cell.tokens ⟨p.line + 1, 1⟩ (l.cells w) ++ templateTokens (p.line + 1 + 1) lines := rfl
    have hwr : ((w, l) :: lines).map writtenTag =
        (replicate w ' ' ++ l.written) :: lines.map writtenTag := rfl
    rw [ht, hwr, map_cons, map_cons, flatMap_cons, cons_append, append_assoc]
    by_cases hw : (indentsAfter indents w).headD 0 = w
    · obtain ⟨start, hk, hs⟩ := places_lineStart hh hhe hw p
      obtain ⟨q, hq, hr⟩ := places_line hh hi (w, l) hli
        (head_flatMap (lines.map writtenTag)) (indentsAfter indents w) (p.line + 1)
      obtain ⟨out, ho, hen⟩ := ih hl (pairwise_indentsAfter hin w) q
      rw [hq] at ho
      refine ⟨_, ?_, (hs.trans hr).ends hen⟩
      have hco := ho.cons hin hw (start ++ Cell.tokens ⟨p.line + 1, 1⟩ (l.cells w))
      rw [filter_append, filter_lineStart hk, Cell.filter_tokens (l.isSome_spelling? w),
        map_append, hk, Cell.kinds_tokens, TagLine.kinds_cells] at hco
      rw [offside?, if_pos hw]
      simpa [Function.comp_def] using hco
    · obtain ⟨d, ha, hen⟩ := ends_lineStart hh hhe hin hw p (lines.map (·.1))
      exact ⟨.error d, ha, hen⟩

end Setting

theorem TagLine.not_mem_written (l : TagLine) : '\r' ∉ l.written := by
  have hn : '\r' ∉ l.name.toList := by
    have hf := l.name_free
    simp only [isFreeName, Bool.and_eq_true, beq_iff_eq] at hf
    exact fun h => absurd (isTagPart_of_mem hf.1.1.1.1 h) (by decide)
  have hcl : '\r' ∉ l.classes.flatMap fun c => '.' :: c.toList := by
    intro h
    obtain ⟨c, hc, h⟩ := mem_flatMap.mp h
    rcases mem_cons.mp h with h | h
    · exact absurd h (by decide)
    · exact absurd (isClassPart_of_mem (l.classes_names c hc) h) (by decide)
  have ha : '\r' ∉ l.attributes.elim [] fun as =>
      '(' :: ([' '].intercalate (as.map (·.written)) ++ [')']) := by
    cases l.attributes with
    | none => exact not_mem_nil
    | some as =>
      have hce := not_mem_cells (c := '\r') (by decide +kernel) (by decide) as
      rw [QuotedAttribute.line_cells] at hce
      simpa using hce
  have ht : '\r' ∉ l.text.elim [] fun t => ' ' :: t.toList := by
    cases ht : l.text with
    | none => exact not_mem_nil
    | some t =>
      have hp := l.text_plain t ht
      exact not_mem_cons_of_ne_of_not_mem (by decide) fun h =>
        absurd (all_eq_true.mp hp _ h) (by decide)
  simp only [written, mem_append, not_or]
  exact ⟨⟨⟨hn, hcl⟩, ha⟩, ht⟩

theorem normalize_template {lines : List (Nat × TagLine)} (hf : ∀ line ∈ lines.head?, line.1 = 0) :
    normalize (joinLines (lines.map writtenTag)) = (joinLines (lines.map writtenTag)).toList := by
  cases lines with
  | nil => rfl
  | cons line lines =>
    obtain ⟨w, l⟩ := line
    obtain rfl : w = 0 := hf (w, l) rfl
    obtain ⟨c, tail, ht, hc⟩ := l.head_written ((lines.map writtenTag).flatMap ('\n' :: ·))
    have hl : (joinLines (((0, l) :: lines).map writtenTag)).toList =
        l.written ++ (lines.map writtenTag).flatMap ('\n' :: ·) := toList_joinLines_cons ..
    refine normalize_eq (hl.trans ht) hc ?_
    rw [hl]
    simp [l.not_mem_written, writtenTag, TagLine.not_mem_written]

theorem outcome_tokenize {file : Option String} {validator : Validator}
    {lines : List (Nat × TagLine)} (hf : ∀ line ∈ lines.head?, line.1 = 0)
    (hv : ∀ line ∈ lines, ∀ a ∈ line.2.attributes.getD [], validator a.literal = none) :
    Outcome [] (lines.map (·.1)) (templateKinds? lines) (templateTokens 1 lines) 1
      (tokenize { file, validator } (joinLines (lines.map writtenTag))) := by
  let env : Setting := ({ file, validator } : Setting).nesting maxInterpolationDepth
  have hh : env.hooks = [] := hooks_nesting _ _
  have hi : env.interpolated = false := interpolated_nesting _ _
  suffices hen : ∃ out, Outcome [] (lines.map (·.1)) (templateKinds? lines)
      (templateTokens 1 lines) 1 out ∧
      env.Concludes ⟨(joinLines (lines.map writtenTag)).toList, [], ⟨1, 1⟩⟩ out by
    obtain ⟨out, ho, hen⟩ := hen
    rw [← normalize_template hf] at hen
    rwa [hen.tokenize]
  cases lines with
  | nil => exact ⟨.ok _, ⟨rfl, rfl, rfl⟩, ends_nil hh hi [] ⟨1, 1⟩⟩
  | cons line lines =>
    obtain ⟨w, l⟩ := line
    obtain rfl : w = 0 := hf (w, l) rfl
    obtain ⟨hli, hl⟩ := forall_mem_cons.mp hv
    obtain ⟨q, hq, hr⟩ := places_line hh hi (0, l) hli (head_flatMap (lines.map writtenTag)) [] 1
    obtain ⟨out, ho, hen⟩ := ends_lines hh hi hl .nil q
    rw [hq] at ho
    have hc := @Outcome.cons [] _ 0 _ _ _ _ .nil rfl ho (Cell.tokens ⟨1, 1⟩ (l.cells 0))
    rw [Cell.filter_tokens (l.isSome_spelling? 0), Cell.kinds_tokens, TagLine.kinds_cells] at hc
    rw [map_cons, map_cons, toList_joinLines_cons]
    refine ⟨_, ?_, hr.ends hen⟩
    have ht : templateTokens 1 ((0, l) :: lines) =
        Cell.tokens ⟨1, 1⟩ (l.cells 0) ++ templateTokens 2 lines := rfl
    rw [templateKinds?, ht]
    simpa [Function.comp_def] using hc

/-- **Indentation follows the offside rule.** A template of tags with free names is read exactly if
every line that is narrower than the innermost open width has a width that is open. Its tokens are
then those of the offside rule. Otherwise the first line that is out of place is reported, with the
open widths around its own. -/
theorem tokenize_offside (file : Option String) (validator : Validator)
    (lines : List (Nat × TagLine)) (hfirst : ∀ line ∈ lines.head?, line.1 = 0)
    (hvalidator : ∀ line ∈ lines, ∀ a ∈ line.2.attributes.getD [], validator a.literal = none) :
    let widths := lines.map (·.1)
    let result := tokenize { file, validator } (joinLines (lines.map writtenTag))
    ((∃ tokens, result = .ok tokens) ↔ ∀ i, ¬Offends [] widths i) ∧
      (∀ tokens, result = .ok tokens → templateKinds? lines = some (tokens.map Token.kind)) ∧
      ∀ d, result = .error d → d.Accuses [] widths 1 := by
  intro widths result
  have houtcome : Outcome [] widths (templateKinds? lines) (templateTokens 1 lines) 1 result :=
    outcome_tokenize hfirst hvalidator
  cases hresult : result with
  | ok tokens =>
    rw [hresult] at houtcome
    obtain ⟨hwidths, hkinds, -⟩ := houtcome
    refine ⟨⟨fun _ => not_offends_of_isIndented .nil hwidths, fun _ => ⟨tokens, rfl⟩⟩, ?_, ?_⟩
    · rintro _ ⟨⟩
      exact hkinds
    · rintro _ ⟨⟩
  | error d =>
    rw [hresult] at houtcome
    have hoffends : ∃ i, Offends [] widths i := by
      obtain ⟨i, hleast, -⟩ := houtcome
      exact ⟨i, hleast.1⟩
    refine ⟨⟨?_, fun hnone => absurd hoffends (not_exists.mpr hnone)⟩, ?_, ?_⟩
    · rintro ⟨_, ⟨⟩⟩
    · rintro _ ⟨⟩
    · rintro _ ⟨⟩
      exact houtcome

/-- The last line is between the second one and the third one. -/
theorem tokenize_offside_between :
    ∃ d, tokenize {} "a\n    b\n        c\n      d" = .error d ∧ d.Accuses [] [0, 4, 8, 6] 1 := by
  let lines : List (Nat × TagLine) :=
    [(0, { name := "a" }), (4, { name := "b" }), (8, { name := "c" }), (6, { name := "d" })]
  have hsource : joinLines (lines.map writtenTag) = "a\n    b\n        c\n      d" := by decide +kernel
  obtain ⟨hread, -, hfails⟩ :=
    tokenize_offside none .acceptAll lines (by simp [lines]) (by decide)
  rw [hsource] at hread hfails
  cases hresult : tokenize {} "a\n    b\n        c\n      d" with
  | ok tokens => exact absurd (by decide) (hread.mp ⟨tokens, hresult⟩ 3)
  | error d => exact ⟨d, rfl, hfails d hresult⟩

/-- The name of a tag that is no keyword, but starts with the word for a loop: the line is not read as
a tag, and the template fails although no line is out of place. -/
theorem offside_each_item :
    Pattern.tagName? "each-item".toList = some "each-item".toList ∧ "each-item" ∉ keywords ∧
      isIndented [] [0, 2] = true ∧
      tokenize {} "div\n  each-item" = .error { cause := .malformedEach, position := ⟨2, 3⟩ } := by
  decide +kernel

end PugTemplate
