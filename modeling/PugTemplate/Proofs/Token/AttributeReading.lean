import PugTemplate.Proofs.Script.Solid
import PugTemplate.Proofs.Token.Fitting
/-!
# Attributes under the reader

The reader of attributes decides at every character whether the attribute that is being read ends
there. It reads an attribute as it is written: blanks before it, a name with or without quotes, and a
marker with a solid value, or nothing behind the name.
-/

namespace PugTemplate

open List Text

open AttributeReader (isSpace continuesName startsAttribute stripQuotes afterSpace?)

/-! ## Attributes as they are written -/

/-- A character of an attribute's name that means nothing else: neither a blank nor an operator, and
no quote. -/
def isAttributePart (c : Char) : Bool :=
  !(Text.isBlank c || Nesting.isPunctuator (some c) || Script.nestingCharacters.contains c)

/-- The name of an attribute as it is written. -/
inductive WrittenName where
  | plain (name : List Char)
  | quoted (quote : Char) (name : List Char)
  deriving DecidableEq

namespace WrittenName

def chars : WrittenName → List Char
  | plain name => name
  | quoted quote name => quote :: (name ++ [quote])

def name : WrittenName → List Char
  | plain name => name
  | quoted _ name => name

/-- A name that is read as it stands anywhere. -/
def isPlain : WrittenName → Bool
  | plain (c :: cs) => isAttributePart c && cs.all fun d => isAttributePart d || d == '-'
  | _ => false

/-- The name is read as it is meant behind this white space. Behind white space the quotes do not
protect what they enclose; where they do, it is still trimmed. -/
def isLegible (lead : List Char) : WrittenName → Bool
  | plain name => (plain name).isPlain
  | quoted quote name =>
    (quote == '\'' || quote == '"') && !name.contains quote && !name.contains '\\' &&
      if lead.isEmpty then !name.isEmpty && stripQuotes (Text.trim name) == name
      else name.all fun c => !(isSpace c || continuesName c)

theorem exists_of_isPlain {name : List Char} (h : (plain name).isPlain) :
    ∃ c cs, name = c :: cs ∧ isAttributePart c ∧
      ∀ d ∈ cs, (isAttributePart d || d == '-') = true := by
  cases name with
  | nil => cases h
  | cons c cs =>
    rw [isPlain, Bool.and_eq_true, all_eq_true] at h
    exact ⟨c, cs, rfl, h⟩

theorem spec_of_isLegible {lead name : List Char} {quote : Char}
    (h : (quoted quote name).isLegible lead) :
    (quote = '\'' ∨ quote = '"') ∧ quote ∉ name ∧ '\\' ∉ name ∧
      (lead = [] → name ≠ [] ∧ stripQuotes (trim name) = name) ∧
      (lead ≠ [] → ∀ c ∈ name, (!(isSpace c || continuesName c)) = true) := by
  simp only [isLegible, Bool.and_eq_true] at h
  refine ⟨by simpa using h.1.1.1, by simpa using h.1.1.2, by simpa using h.1.2, ?_, ?_⟩
  · rintro rfl
    simpa using h.2
  · intro hl
    rw [if_neg (by simpa using hl), all_eq_true] at h
    exact h.2

end WrittenName

/-- An attribute as it is written: its value has a marker that tells whether it is to be escaped. -/
structure WrittenAttribute where
  label : WrittenName
  value : Option (Bool × List Char) := none

namespace WrittenAttribute

def marker (escape : Bool) : List Char := if escape then ['='] else ['!', '=']

def chars (a : WrittenAttribute) : List Char :=
  a.label.chars ++ a.value.elim [] fun value => marker value.1 ++ value.2

/-- The value of the attribute is solid, if it has one. -/
def isSolid (a : WrittenAttribute) : Bool :=
  a.value.all fun value => !value.2.isEmpty && ({} : Nesting.State).isSolid value.2

/-- The attribute is read as it is meant behind this white space. -/
def isLegible (lead : List Char) (a : WrittenAttribute) : Bool := a.label.isLegible lead && a.isSolid

theorem spec_of_isSolid {a : WrittenAttribute} (h : a.isSolid) {value : Bool × List Char}
    (hv : a.value = some value) :
    value.2 ≠ [] ∧ ({} : Nesting.State).isSolid value.2 := by
  rw [isSolid, hv] at h
  simpa using h

/-- The token of the attribute: an attribute without a value may have either flag. -/
def Yields (a : WrittenAttribute) (kind : TokenKind) : Prop :=
  match a.value with
  | some (escape, value) =>
    kind = .attribute (String.ofList a.label.name) (.expression (String.ofList value)) escape
  | none => ∃ escape, kind = .attribute (String.ofList a.label.name) .bare escape

/-- The token of the attribute with the flag that it has without a value. -/
def kind (escape : Bool) (a : WrittenAttribute) : TokenKind :=
  match a.value with
  | some (escape, value) =>
    .attribute (String.ofList a.label.name) (.expression (String.ofList value)) escape
  | none => .attribute (String.ofList a.label.name) .bare escape

theorem yields_kind (escape : Bool) (a : WrittenAttribute) : a.Yields (a.kind escape) := by
  obtain ⟨label, _ | value⟩ := a
  · exact ⟨escape, rfl⟩
  · rfl

end WrittenAttribute

theorem ne_of_isAttributePart {c : Char} (h : isAttributePart c) :
    ∀ d, isAttributePart d = false → c ≠ d := by
  rintro d hd rfl
  rw [h] at hd
  exact absurd hd (by simp)

theorem isBlank_of_isAttributePart {c : Char} (h : isAttributePart c) : isBlank c = false := by
  simp only [isAttributePart, Bool.not_eq_true', Bool.or_eq_false_iff] at h
  exact h.1.1

/-- A character that neither separates attributes nor starts a value. -/
def isNamePart (c : Char) : Bool := !(isSpace c || continuesName c)

theorem isNamePart_of_isAttributePart {c : Char} (h : (isAttributePart c || c == '-') = true) :
    isNamePart c := by
  rw [Bool.or_eq_true, beq_iff_eq] at h
  rcases h with h | rfl
  · have hn := ne_of_isAttributePart h
    simp [isNamePart, isSpace, continuesName, hn ' ' (by decide), hn '\n' (by decide),
      hn '\t' (by decide), hn '=' (by decide), hn '!' (by decide), hn ',' (by decide)]
  · decide

theorem isBlank_of_isSpace {c : Char} (h : isSpace c) : isBlank c := by
  simp only [isSpace, Bool.or_eq_true, beq_iff_eq] at h
  rcases h with (rfl | rfl) | rfl <;> decide +kernel

/-! ## Characters under the reader -/

namespace Setting

variable {env : Setting} {r : AttributeReader} {s : Lexer} {more : List Char} {c : Char}
  {cs lead : List Char} {a : WrittenAttribute} {escape : Bool}

/-- **The reader gets over a text:** it goes on behind it with another attribute in another place,
and counts columns on one line. -/
structure Covers (env : Setting) (more : List Char) (r : AttributeReader) (s : Lexer)
    (text : List Char) (r' : AttributeReader) (s' : Lexer) : Prop where
  read : env.readAttributes r s (text ++ more) = env.readAttributes r' s' more
  frame : ∃ line column, s' = { s with line, column }
  straight : '\n' ∉ text → s' = s.advanceColumn text.length ∧ r'.line = r.line

theorem Covers.refl : env.Covers more r s [] r s := ⟨rfl, ⟨_, _, rfl⟩, fun _ => ⟨rfl, rfl⟩⟩

theorem Covers.trans {r' r'' : AttributeReader} {s' s'' : Lexer} {text text' : List Char}
    (h : env.Covers (text' ++ more) r s text r' s') (h' : env.Covers more r' s' text' r'' s'') :
    env.Covers more r s (text ++ text') r'' s'' := by
  refine ⟨by rw [append_assoc, h.read, h'.read], ?_, fun hb => ?_⟩
  · obtain ⟨_, _, rfl⟩ := h.frame
    obtain ⟨line, column, rfl⟩ := h'.frame
    exact ⟨line, column, rfl⟩
  · rw [mem_append, not_or] at hb
    obtain ⟨rfl, hl⟩ := h.straight hb.1
    obtain ⟨rfl, hl'⟩ := h'.straight hb.2
    refine ⟨?_, hl'.trans hl⟩
    simp [Lexer.advanceColumn, Nat.add_assoc]

theorem mark_of_named (h : r.isUnnamed = false) : r.mark s = r := by
  rw [AttributeReader.mark, h]
  rfl

theorem mark_of_unnamed (h : r.isUnnamed) : r.mark s = { r with start := s.column } := by
  rw [AttributeReader.mark, if_pos h]

theorem exists_mark (r : AttributeReader) (s : Lexer) : ∃ start, r.mark s = { r with start } := by
  unfold AttributeReader.mark
  split <;> exact ⟨_, rfl⟩

theorem covers_char {next : AttributeReader}
    (hen : (r.mark s).endsAt env.validator (c :: more) = false)
    (hba : ((r.mark s).part == .name && c == '!') = false)
    (ht : env.takeAttributeChar (r.mark s) s c more = .ok next) (hl : next.line = r.line) :
    ∃ line s', env.Covers more r s [c] { next with line := line } s' := by
  have hr : env.readAttributes r s (c :: more) =
      env.readAttributes (next.pass s c).1 (next.pass s c).2 more := by
    rw [readAttributes]
    rw [hen, hba, ht]
    rfl
  unfold AttributeReader.pass at hr
  split at hr
  · next hb =>
    refine ⟨_, _, hr, ⟨_, _, rfl⟩, fun h => ?_⟩
    rw [beq_iff_eq] at hb
    simp [hb] at h
  · exact ⟨next.line, _, hr, ⟨_, _, rfl⟩, fun _ => ⟨rfl, hl⟩⟩

/-- An attribute does not end at a character that is neither white space nor a comma. -/
theorem endsAt_eq_false (validator : Validator) (hc : isSpace c = false) (hco : c ≠ ',')
    (cs : List Char) : r.endsAt validator (c :: cs) = false := by
  have ha : afterSpace? (c :: cs) = none := by simp [afterSpace?, hc]
  unfold AttributeReader.endsAt
  rw [ha]
  cases r.part <;> simp [hco]

theorem endsAt_of_unnamed (validator : Validator) (h : r.isUnnamed) (cs : List Char) :
    r.endsAt validator cs = false := by
  rw [AttributeReader.endsAt, h]
  rfl

/-! ## Names -/

theorem covers_nameChar (hp : r.part = .name) (hc : c ≠ '=' ∧ c ≠ '!')
    (hq : r.name ≠ [] ∨ (c ≠ '"' ∧ c ≠ '\''))
    (hen : (r.mark s).endsAt env.validator (c :: more) = false) :
    ∃ line s', env.Covers more r s [c] { r.mark s with name := r.name ++ [c], line } s' := by
  obtain ⟨start, hm⟩ := exists_mark r s
  have ht : env.takeAttributeChar (r.mark s) s c more =
      .ok { r.mark s with name := r.name ++ [c] } := by
    rw [hm, takeAttributeChar, hp]
    rcases hq with hq | hq <;> simp [hc, hq]
  exact covers_char hen (by simp [hc]) ht (by rw [hm])

/-- Characters that the reader adds to the name, while something holds of it. -/
def Names (env : Setting) (I : AttributeReader → Prop) (cs : List Char) : Prop :=
  ∀ more r s, I r → ∃ start line s',
    env.Covers more r s cs { r with name := r.name ++ cs, start, line } s' ∧
      I { r with name := r.name ++ cs, start, line }

theorem names_chars {I : AttributeReader → Prop} (h : ∀ c ∈ cs, env.Names I [c]) :
    env.Names I cs := by
  intro more r s hr
  induction cs generalizing r s with
  | nil => exact ⟨r.start, r.line, s, by rw [append_nil]; exact ⟨.refl, hr⟩⟩
  | cons c cs ih =>
    obtain ⟨hc, hcs⟩ := forall_mem_cons.mp h
    obtain ⟨_, _, s', hf, hi⟩ := hc (cs ++ more) r s hr
    obtain ⟨start, line, s'', hl, hi'⟩ := ih hcs _ s' hi
    have hb := And.intro (hf.trans hl) hi'
    exact ⟨start, line, s'', by simpa only [append_assoc, singleton_append] using hb⟩

theorem names_space (hc : isSpace c) :
    env.Names (fun r => r.part = .name ∧ r.isUnnamed) [c] := by
  rintro more r s ⟨hp, hu⟩
  have hb := isBlank_of_isSpace hc
  have hn : ∀ d, isSpace d = false → c ≠ d := by
    rintro d hd rfl
    exact absurd (hc.symm.trans hd) (by simp)
  have hen := endsAt_of_unnamed (r := r.mark s) env.validator
    (by rw [mark_of_unnamed hu]; exact hu) (c :: more)
  obtain ⟨line, s', hf⟩ := covers_nameChar hp ⟨hn '=' (by decide), hn '!' (by decide)⟩
    (.inr ⟨hn '"' (by decide), hn '\'' (by decide)⟩) hen
  rw [mark_of_unnamed hu] at hf
  exact ⟨_, line, s', hf, hp, by simpa [AttributeReader.isUnnamed, isBlankText, hb] using hu⟩

theorem isUnnamed_append {ds : List Char} (h : r.name = cs ++ ds) (hc : c ∈ ds)
    (hb : isBlank c = false) : r.isUnnamed = false := by
  rw [AttributeReader.isUnnamed, h, isBlankText, all_eq_false]
  exact ⟨c, mem_append_right _ hc, by simp [hb]⟩

theorem names_part (hc : isNamePart c) {start : Nat} : env.Names
    (fun r => r.part = .name ∧ r.isUnnamed = false ∧ r.start = start) [c] := by
  rintro more r s ⟨hp, hn, hs⟩
  simp only [isNamePart, continuesName, Bool.not_eq_true', Bool.or_eq_false_iff,
    beq_eq_false_iff_ne] at hc
  have hna : r.name ≠ [] := by
    intro hna
    simp [AttributeReader.isUnnamed, hna, isBlankText] at hn
  obtain ⟨line, s', hf⟩ := @covers_nameChar env r s more c hp
    ⟨hc.2.1.1, hc.2.1.2⟩ (.inl hna) (endsAt_eq_false _ hc.1 hc.2.2 _)
  rw [mark_of_named hn] at hf
  refine ⟨r.start, line, s', hf, hp, ?_, hs⟩
  simp only [AttributeReader.isUnnamed, isBlankText, all_append, Bool.and_eq_false_iff] at hn ⊢
  exact .inl hn

/-- **A name** that the reader takes as it stands starts at its first character. -/
theorem covers_label {cs : List Char} (hc : isBlank c = false)
    (hcs : ∀ d ∈ c :: cs, isNamePart d) (hq : r.name ≠ [] ∨ (c ≠ '"' ∧ c ≠ '\''))
    (hpa : r.part = .name) (hu : r.isUnnamed) :
    ∃ line s', env.Covers more r s (c :: cs)
      { r with name := r.name ++ c :: cs, start := s.column, line } s' := by
  obtain ⟨hp, hcs⟩ := List.forall_mem_cons.mp hcs
  simp only [isNamePart, continuesName, Bool.not_eq_true', Bool.or_eq_false_iff,
    beq_eq_false_iff_ne] at hp
  obtain ⟨line, s', hf⟩ := @covers_nameChar env r s (cs ++ more) c hpa
    ⟨hp.2.1.1, hp.2.1.2⟩ hq (endsAt_eq_false _ hp.1 hp.2.2 _)
  rw [mark_of_unnamed hu] at hf
  obtain ⟨_, line', s'', hr, -, -, rfl⟩ := names_chars (fun d hd => names_part (hcs d hd)) more
    { r with name := r.name ++ [c], start := s.column, line } s'
    ⟨hpa, isUnnamed_append rfl (List.mem_singleton.mpr rfl) hc, rfl⟩
  refine ⟨line', s'', ?_⟩
  have hb := hf.trans hr
  simpa only [append_assoc, singleton_append] using hb

theorem names_inside {quote : Char} (hc : c ≠ quote) :
    env.Names (·.part = .quotedName quote) [c] := by
  intro more r s hp
  obtain ⟨start, hm⟩ := exists_mark r s
  have ht : env.takeAttributeChar (r.mark s) s c more =
      .ok { r with name := r.name ++ [c], start } := by
    rw [hm, takeAttributeChar, hp]
    simp [hc]
  have hen : (r.mark s).endsAt env.validator (c :: more) = false := by
    rw [hm, AttributeReader.endsAt, hp]
    simp
  obtain ⟨line, s', hf⟩ := covers_char hen (by rw [hm, hp]; rfl) ht rfl
  exact ⟨start, line, s', hf, hp⟩

theorem covers_quoted {quote : Char} {cs : List Char} (hq : quote = '\'' ∨ quote = '"')
    (hcs : quote ∉ cs) (hpa : r.part = .name) (hn : r.name = [])
    (hm : ∀ c ∈ more.head?, (isSpace c || continuesName c) = true) :
    ∃ start line s', env.Covers more r s (quote :: (cs ++ [quote]))
      { r with name := cs, start, line } s' := by
  have hu : r.isUnnamed := by rw [AttributeReader.isUnnamed, hn]; rfl
  have ht : env.takeAttributeChar (r.mark s) s quote (cs ++ [quote] ++ more) =
      .ok { r with part := .quotedName quote, start := s.column } := by
    rw [mark_of_unnamed hu, takeAttributeChar, hpa]
    rcases hq with rfl | rfl <;> simp [hn]
  have hp : isSpace quote = false ∧ quote ≠ ',' ∧ (quote == '!') = false := by
    rcases hq with rfl | rfl <;> decide
  obtain ⟨line, s', ho⟩ := covers_char (endsAt_eq_false _ hp.1 hp.2.1 _)
    (by rw [hp.2.2, Bool.and_false]) ht rfl
  obtain ⟨start, line', s'', hi, -⟩ :=
    names_chars (fun c hc => names_inside (ne_of_mem_of_not_mem hc hcs)) ([quote] ++ more)
      { r with part := .quotedName quote, start := s.column, line } s' rfl
  let inner : AttributeReader :=
    { r with part := .quotedName quote, name := r.name ++ cs, start, line := line' }
  obtain ⟨start', hma⟩ := exists_mark inner s''
  have ht' : env.takeAttributeChar (inner.mark s'') s'' quote more =
      .ok { inner with part := .name, start := start' } := by
    rw [hma, takeAttributeChar]
    simp only [inner, beq_self_eq_true, if_true]
    cases hh : more.head? with
    | none => rfl
    | some found => simp [hm found hh]
  obtain ⟨line'', s''', hc⟩ := covers_char (endsAt_eq_false _ hp.1 hp.2.1 _)
    (by rw [hp.2.2, Bool.and_false]) ht' rfl
  refine ⟨start', line'', s''', ?_⟩
  have ha := ho.trans (hi.trans hc)
  simpa only [inner, hn, hpa, nil_append, singleton_append] using ha

/-! ## Values -/

theorem covers_marker (escape : Bool) (hp : r.part = .name) (hn : r.isUnnamed = false) :
    ∃ valueStart line s', env.Covers more r s (WrittenAttribute.marker escape)
      { r with part := .value {}, escape, valueStart, line } s' := by
  cases escape with
  | true =>
    have ht : env.takeAttributeChar (r.mark s) s '=' more = .ok (r.startValue true s) := by
      rw [mark_of_named hn, takeAttributeChar, hp]
      simp
    obtain ⟨line, s', hc⟩ :=
      covers_char (endsAt_eq_false _ (by decide) (by decide) _) (by simp) ht rfl
    exact ⟨_, line, s', hc⟩
  | false =>
    have hen := endsAt_eq_false (r := r) env.validator (c := '!') (by decide) (by decide)
      ('=' :: more)
    refine ⟨(s.advanceColumn 1).column + 1, r.line, (s.advanceColumn 1).advanceColumn 1, ?_,
      ⟨_, _, rfl⟩, fun _ => ⟨by simp [Lexer.advanceColumn, WrittenAttribute.marker], rfl⟩⟩
    show env.readAttributes r s ('!' :: '=' :: more) = _
    rw [readAttributes]
    rw [mark_of_named hn, hen, hp]
    rfl

theorem covers_value {value : List Char} {nesting : Nesting.State}
    (hp : r.part = .value nesting) (hn : r.isUnnamed = false)
    (hs : nesting.isSolid value) :
    ∃ (next : Nesting.State) (line : Nat) (s' : Lexer), next.stack = [] ∧ env.Covers more r s value
        { r with part := .value next, value := r.value ++ value, line } s' := by
  induction value generalizing r s nesting with
  | nil =>
    refine ⟨nesting, r.line, s, isEmpty_iff.mp hs, ?_⟩
    rw [append_nil, ← hp]
    exact .refl
  | cons c value ih =>
    obtain ⟨mid, hpu, -, hi, hr⟩ := Nesting.State.exists_push_of_solid hs
    have ht : env.takeAttributeChar (r.mark s) s c (value ++ more) =
        .ok { r with part := .value mid, value := r.value ++ [c] } := by
      rw [mark_of_named hn, takeAttributeChar, hp]
      dsimp only
      rw [hpu]
    have hen : (r.mark s).endsAt env.validator (c :: (value ++ more)) = false := by
      rw [mark_of_named hn]
      rcases hi with ⟨ho, -⟩ | ⟨hb, hc⟩
      · simp [AttributeReader.endsAt, hp, Nesting.State.isNesting, ho]
      · refine endsAt_eq_false _ (Bool.eq_false_iff.mpr fun hsp => ?_) hc _
        exact absurd (isBlank_of_isSpace hsp) (by simp [hb])
    obtain ⟨line, s', hf⟩ :=
      covers_char hen (by rw [mark_of_named hn, hp]; rfl) ht rfl
    obtain ⟨next, line', s'', hne, hv⟩ :=
      @ih { r with part := .value mid, value := r.value ++ [c], line } s' mid rfl hn hr
    refine ⟨next, line', s'', hne, ?_⟩
    have hbo := hf.trans hv
    simpa only [append_assoc, singleton_append] using hbo

/-! ## What is left of the blanks -/

theorem trim_eq_self (hh : ∀ c ∈ cs.head?, isBlank c = false)
    (hl : ∀ c ∈ cs.getLast?, isBlank c = false) : trim cs = cs := by
  have hs : trimStart cs = cs := by
    cases cs with
    | nil => rfl
    | cons c cs => exact dropWhile_cons_of_neg (by simp [hh c rfl])
  have hen : cs.reverse.dropWhile isBlank = cs.reverse := by
    cases hr : cs.reverse with
    | nil => rfl
    | cons c tail =>
      have hc : c ∈ cs.getLast? := by rw [getLast?_eq_head?_reverse, hr]; rfl
      exact dropWhile_cons_of_neg (by simp [hl c hc])
  rw [trim, hs, trimEnd, hen, reverse_reverse]

theorem trim_lead (hl : ∀ c ∈ lead, isSpace c) (cs : List Char) : trim (lead ++ cs) = trim cs := by
  have hs : trimStart (lead ++ cs) = trimStart cs :=
    dropWhile_append_of_pos fun c hc => isBlank_of_isSpace (hl c hc)
  rw [trim, hs]
  rfl

theorem isBlank_of_solid {nesting : Nesting.State} (h : nesting.isSolid cs) :
    ∀ c ∈ cs.getLast?, isBlank c = false := by
  induction cs generalizing nesting with
  | nil => exact fun c hc => absurd hc (by simp)
  | cons c cs ih =>
    obtain ⟨next, -, -, hi, hr⟩ := Nesting.State.exists_push_of_solid h
    cases cs with
    | nil =>
      intro d hd
      cases hd
      exact (hi.resolve_left fun ho => ho.2 (isEmpty_iff.mp hr)).1
    | cons d cs =>
      exact ih hr

theorem trim_of_solid (h : ({} : Nesting.State).isSolid cs) : trim cs = cs := by
  refine trim_eq_self (fun c hc => ?_) (isBlank_of_solid h)
  obtain ⟨tail, rfl⟩ := head?_eq_some_iff.mp hc
  obtain ⟨next, -, -, hi, -⟩ := Nesting.State.exists_push_of_solid h
  exact (hi.resolve_left fun ho => ho.1 rfl).1

theorem stripQuotes_eq_self (h : ∀ c ∈ cs, c ≠ '"' ∧ c ≠ '\'') : stripQuotes cs = cs := by
  have hd : ∀ ds : List Char, (∀ c ∈ ds, c ≠ '"' ∧ c ≠ '\'') → stripQuotes.dropQuote ds = ds := by
    intro ds hds
    cases ds with
    | nil => rfl
    | cons c ds => simp [stripQuotes.dropQuote, hds c (mem_cons_self ..)]
  rw [stripQuotes, hd _ h, stripQuotes.dropEndQuote,
    hd _ fun c hc => h c (mem_reverse.mp hc), reverse_reverse]

theorem stripQuotes_quoted {quote : Char} (hq : quote = '\'' ∨ quote = '"') (cs : List Char) :
    stripQuotes (quote :: (cs ++ [quote])) = cs := by
  rcases hq with rfl | rfl <;>
    simp [stripQuotes, stripQuotes.dropQuote, stripQuotes.dropEndQuote]

/-! ## Attributes -/

/-- The reader is before an attribute. -/
structure Fresh (r : AttributeReader) : Prop where
  part : r.part = .name
  name : r.name = []
  value : r.value = []

/-- The reader is behind the name of an attribute. -/
structure BehindName (label : WrittenName) (escape : Bool) (r : AttributeReader) : Prop where
  part : r.part = .name
  named : r.isUnnamed = false
  name : stripQuotes (Text.trim r.name) = label.name
  value : r.value = []
  escape : r.escape = escape

/-- **A name** behind white space. A plain name that nothing stands before starts where it is. -/
theorem covers_name (h : Fresh r) {lead : List Char} (hl : ∀ c ∈ lead, isSpace c)
    {label : WrittenName} (hla : label.isLegible lead)
    (hm : ∀ c ∈ more.head?, (isSpace c || continuesName c) = true) :
    ∃ r' s', env.Covers more r s (lead ++ label.chars) r' s' ∧ BehindName label r.escape r' ∧
      (label = .plain label.name → lead = [] → r'.start = s.column) := by
  have hu : r.isUnnamed := by rw [AttributeReader.isUnnamed, h.name]; rfl
  -- A name that is taken as it stands, quotes included.
  have ht : ∀ c cs, label.chars = c :: cs → isBlank c = false →
      (∀ d ∈ c :: cs, isNamePart d) → (lead ≠ [] ∨ (c ≠ '"' ∧ c ≠ '\'')) →
      stripQuotes (trim (c :: cs)) = label.name →
      ∃ r' s', env.Covers more r s (lead ++ label.chars) r' s' ∧ BehindName label r.escape r' ∧
        (label = .plain label.name → lead = [] → r'.start = s.column) := by
    intro c cs hch hb hpa hq hst
    obtain ⟨start, line, s', hf, -⟩ := names_chars (fun c hc => names_space (hl c hc))
      (label.chars ++ more) r s ⟨h.part, hu⟩
    rw [h.name] at hf
    have hl' : isBlankText lead :=
      all_eq_true.mpr fun d hd => isBlank_of_isSpace (hl d hd)
    obtain ⟨line', s'', hr⟩ :=
      @covers_label env { r with name := lead, start, line } s' more c cs hb hpa hq h.part hl'
    rw [← hch] at hr
    refine ⟨_, s'', hf.trans hr, ⟨h.part, ?_, ?_, h.value, rfl⟩, ?_⟩
    · exact isUnnamed_append rfl (by rw [hch]; exact mem_cons_self ..) hb
    · rw [trim_lead hl, hch, hst]
    · rintro - rfl
      obtain ⟨rfl, -⟩ := hf.straight not_mem_nil
      rfl
  cases label with
  | plain name =>
    obtain ⟨c, cs, rfl, hc, hcs⟩ := WrittenName.exists_of_isPlain hla
    have hpa : ∀ d ∈ c :: cs, (isAttributePart d || d == '-') = true :=
      forall_mem_cons.mpr ⟨by simp [hc], hcs⟩
    have hp : ∀ d ∈ c :: cs, isBlank d = false ∧ d ≠ '"' ∧ d ≠ '\'' := by
      intro d hd
      have hpar := hpa d hd
      rw [Bool.or_eq_true, beq_iff_eq] at hpar
      rcases hpar with hpar | rfl
      · have hne := ne_of_isAttributePart hpar
        exact ⟨isBlank_of_isAttributePart hpar, hne _ (by decide +kernel), hne _ (by decide +kernel)⟩
      · decide +kernel
    refine ht c cs rfl (hp c (mem_cons_self ..)).1
      (fun d hd => isNamePart_of_isAttributePart (hpa d hd))
      (.inr (hp c (mem_cons_self ..)).2) ?_
    rw [trim_eq_self (fun d hd => (hp d (mem_of_mem_head? hd)).1)
      fun d hd => (hp d (mem_of_mem_getLast? hd)).1]
    exact stripQuotes_eq_self fun d hd => (hp d hd).2
  | quoted quote name =>
    obtain ⟨hq, hna, -, hs, ht'⟩ := WrittenName.spec_of_isLegible hla
    by_cases hn : lead = []
    · subst hn
      replace hs := hs rfl
      obtain ⟨start, line, s', hco⟩ :=
        @covers_quoted env r s more quote name hq hna h.part h.name hm
      refine ⟨_, s', hco, ⟨h.part, ?_, hs.2, h.value, rfl⟩, by rintro ⟨⟩⟩
      -- a name of blanks would be trimmed
      by_contra hb
      have htr : trim name = [] := by
        have ha : name.dropWhile isBlank = [] :=
          dropWhile_eq_nil_iff.mpr (all_eq_true.mp (Bool.not_eq_false _ ▸ hb))
        rw [trim, trimStart, ha]
        rfl
      rw [htr] at hs
      exact hs.1 hs.2.symm
    · have hp : isBlank quote = false ∧ isNamePart quote := by
        rcases hq with rfl | rfl <;> decide +kernel
      refine ht quote (name ++ [quote]) rfl hp.1 ?_ (.inl hn) ?_
      · exact forall_mem_cons.mpr ⟨hp.2, forall_mem_append.mpr
          ⟨ht' hn, forall_mem_singleton.mpr hp.2⟩⟩
      · rw [trim_eq_self, stripQuotes_quoted hq]
        · rfl
        · rintro d hd
          cases hd
          exact hp.1
        · intro d hd
          rw [← cons_append, getLast?_append_of_ne_nil _ (by simp)] at hd
          cases hd
          exact hp.1

/-- The reader is behind an attribute, which has this flag if it has no value. -/
structure Behind (a : WrittenAttribute) (escape : Bool) (r : AttributeReader) : Prop where
  named : r.isUnnamed = false
  name : stripQuotes (Text.trim r.name) = a.label.name
  part : a.value = none → r.part = .name ∧ r.value = [] ∧ r.escape = escape
  value : ∀ value ∈ a.value, (∃ nesting, r.part = .value nesting ∧ nesting.stack = []) ∧
    r.value = value.2 ∧ r.escape = value.1

theorem covers_attribute (h : Fresh r) {lead : List Char} (hle : ∀ c ∈ lead, isSpace c)
    {a : WrittenAttribute} (ha : a.isLegible lead)
    (hmo : ∀ c ∈ more.head?, (isSpace c || continuesName c) = true) :
    ∃ r' s', env.Covers more r s (lead ++ a.chars) r' s' ∧ Behind a r.escape r' ∧
      (a.label = .plain a.label.name → lead = [] → r'.start = s.column) := by
  obtain ⟨hl, hv⟩ := Bool.and_eq_true_iff.mp ha
  obtain ⟨label, value⟩ := a
  cases value with
  | none =>
    obtain ⟨r', s', hc, hn, hs⟩ := covers_name h hle hl hmo
    refine ⟨r', s', ?_, ⟨hn.named, hn.name, fun _ => ⟨hn.part, hn.value, hn.escape⟩,
      by rintro _ ⟨⟩⟩, hs⟩
    rwa [WrittenAttribute.chars, Option.elim_none, append_nil]
  | some value =>
    obtain ⟨escape, value⟩ := value
    have hso := (WrittenAttribute.spec_of_isSolid hv rfl).2
    obtain ⟨r₁, s₁, hc, hn, hs⟩ := @covers_name env r s
      (WrittenAttribute.marker escape ++ (value ++ more)) h lead hle label hl (by
        cases escape <;> simp [WrittenAttribute.marker, continuesName])
    obtain ⟨valueStart, line, s₂, hm⟩ :=
      @covers_marker env r₁ s₁ (value ++ more) escape hn.part hn.named
    obtain ⟨next, line', s₃, hne, hv⟩ := @covers_value env
      { r₁ with part := .value {}, escape, valueStart, line } s₂ more value {} rfl hn.named hso
    refine ⟨{ r₁ with part := .value next, value := r₁.value ++ value, escape, valueStart,
                      line := line' }, s₃, ?_, ⟨hn.named, hn.name, by rintro ⟨⟩, ?_⟩, hs⟩
    · show env.Covers more r s (lead ++ (label.chars ++ (WrittenAttribute.marker escape ++ value))) _ _
      rw [← append_assoc]
      exact Covers.trans (by rwa [append_assoc]) (hm.trans hv)
    · intro found hf
      cases hf
      refine ⟨⟨next, rfl, hne⟩, ?_, rfl⟩
      rw [hn.value, nil_append]

/-! ## The ends of attributes -/

theorem token_of_behind (ha : a.isSolid) (h : Behind a escape r) : r.token = a.kind escape := by
  obtain ⟨label, value⟩ := a
  have hn : stripQuotes (trim r.name) = label.name := h.name
  cases value with
  | none =>
    obtain ⟨-, hv, hes⟩ := h.part rfl
    rw [AttributeReader.token, hn, hv, hes]
    rfl
  | some value =>
    obtain ⟨hne, hs⟩ := WrittenAttribute.spec_of_isSolid ha rfl
    obtain ⟨-, hv, hes⟩ := h.value _ rfl
    rw [AttributeReader.token, hn, hv, hes, trim_of_solid hs, if_neg]
    · rfl
    · simpa using hne

/-- The validator accepts the value of an attribute. -/
def Accepts (validator : Validator) (a : WrittenAttribute) : Prop :=
  ∀ value ∈ a.value, validator (String.ofList value.2) = none

/-- The lexer with the attribute that has been read. -/
def finished (r : AttributeReader) (s : Lexer) : Lexer :=
  { s.pushAt r.token ⟨s.line, r.start⟩ with line := r.line }

theorem finishAttribute_of_behind (h : Behind a escape r) (hv : Accepts env.validator a) :
    env.finishAttribute r s = .ok (finished r s) := by
  unfold finishAttribute
  obtain ⟨label, value⟩ := a
  cases value with
  | none =>
    rw [(h.part rfl).2.1]
    rfl
  | some value =>
    have hva : env.requireExpression r.value ⟨s.line, r.valueStart⟩ = .ok () := by
      rw [requireExpression, (h.value _ rfl).2.1, hv _ rfl]
    rw [hva]
    split <;> rfl

theorem readAttributes_end (h : Behind a escape r) (hv : Accepts env.validator a) :
    env.readAttributes r s [] = .ok (finished r s) := by
  rw [readAttributes, mark_of_named h.named, h.named, if_neg Bool.false_ne_true,
    finishAttribute_of_behind h hv]

theorem readAttributes_separator {a b : WrittenAttribute} {escape : Bool} (h : Behind a escape r)
    (hv : Accepts env.validator a) {d : Char} (hd : d = ',' ∨ isSpace d)
    {lead : List Char} (hle : ∀ c ∈ lead, isSpace c) (hb : b.isLegible lead) :
    env.readAttributes r s (d :: (lead ++ b.chars ++ more)) =
      env.readAttributes (r.next.pass (finished r s) d).1 (r.next.pass (finished r s) d).2
        (lead ++ b.chars ++ more) := by
  -- the first character of the next attribute
  obtain ⟨c, cs, hch, hc⟩ : ∃ c cs, b.chars = c :: cs ∧
      (isSpace c = false ∧ startsAttribute c ∧ continuesName c = false) := by
    have hl := (Bool.and_eq_true_iff.mp hb).1
    obtain ⟨label, value⟩ := b
    cases label with
    | plain name =>
      obtain ⟨c, cs, rfl, hc, -⟩ := WrittenName.exists_of_isPlain hl
      have hp := isNamePart_of_isAttributePart (c := c) (by simp [hc])
      simp only [isNamePart, Bool.not_eq_true', Bool.or_eq_false_iff] at hp
      simp only [isAttributePart, Bool.not_eq_true', Bool.or_eq_false_iff] at hc
      exact ⟨c, _, rfl, hp.1, by simp [startsAttribute, hc.1.2], hp.2⟩
    | quoted quote name =>
      refine ⟨quote, _, rfl, ?_⟩
      rcases (WrittenName.spec_of_isLegible hl).1 with rfl | rfl <;> decide
  have hen : r.endsAt env.validator (d :: (lead ++ b.chars ++ more)) := by
    have ha : isSpace d → afterSpace? (d :: (lead ++ b.chars ++ more)) = some c := by
      intro hs
      have hdr : (lead ++ b.chars ++ more).dropWhile isSpace = c :: (cs ++ more) := by
        rw [append_assoc, dropWhile_append_of_pos hle, hch]
        exact dropWhile_cons_of_neg (by simp [hc.1])
      rw [afterSpace?, if_pos hs, hdr]
      rfl
    unfold AttributeReader.endsAt
    rw [h.named]
    obtain ⟨label, value⟩ := a
    cases value with
    | none =>
      rw [(h.part rfl).1]
      rcases hd with hd | hd
      · rw [hd]
        rfl
      · rw [ha hd]
        simp [hc.2.2]
    | some value =>
      obtain ⟨⟨nesting, hp, hst⟩, hva, -⟩ := h.value _ rfl
      have hcl : (nesting.isNesting false || nesting.isString) = false := by
        simp [Nesting.State.isNesting, Nesting.State.isString, Nesting.State.current, hst]
      have hac : env.validator.accepts (String.ofList r.value) := by
        rw [hva, Validator.accepts, hv _ rfl]
        rfl
      rw [hp]
      dsimp only
      rw [hcl, hac]
      rcases hd with hd | hd
      · rw [hd]
        rfl
      · rw [ha hd]
        simp [hc.2.1]
  rw [readAttributes]
  rw [mark_of_named h.named, hen, finishAttribute_of_behind h hv]
  rfl

/-! ## Lists under the lexer -/

theorem carries_attribute (ha : a.isLegible lead) : Nesting.State.Carries a.chars := by
  obtain ⟨hl, hso⟩ := Bool.and_eq_true_iff.mp ha
  have hla : Nesting.State.Carries a.label.chars := by
    obtain ⟨label, value⟩ := a
    cases label with
    | plain name =>
      obtain ⟨c, cs, rfl, hc, hcs⟩ := WrittenName.exists_of_isPlain hl
      refine Nesting.State.carries_chars fun d hd hme => ?_
      have hpa : (isAttributePart d || d == '-') = true := by
        rcases mem_cons.mp hd with rfl | hd
        · simp [hc]
        · exact hcs d hd
      have hal : Nesting.delimiters.all (fun e => !(isAttributePart e || e == '-')) = true := by
        decide +kernel
      exact absurd hpa (by simpa using all_eq_true.mp hal d hme)
    | quoted quote name =>
      obtain ⟨hq, hn, hb, -⟩ := WrittenName.spec_of_isLegible hl
      have hp : ∀ p ∈ name.map Nesting.LiteralPart.plain, p.isInside quote := by
        refine forall_mem_map.mpr fun c hc => ?_
        simp [Nesting.LiteralPart.isInside, ne_of_mem_of_not_mem hc hn, ne_of_mem_of_not_mem hc hb]
      have ht : (name.map Nesting.LiteralPart.plain).flatMap Nesting.LiteralPart.chars = name := by
        rw [flatMap_map]
        exact flatMap_singleton' name
      have hs := Nesting.Balanced.string hq hp
      rw [ht] at hs
      exact Nesting.State.carries_balanced hs
  have hv : Nesting.State.Carries
      (a.value.elim [] fun value => WrittenAttribute.marker value.1 ++ value.2) := by
    cases hv : a.value with
    | none => exact Nesting.State.carries_balanced .nil
    | some value =>
      obtain ⟨escape, value⟩ := value
      have hm : Nesting.State.Carries (WrittenAttribute.marker escape) :=
        Nesting.State.carries_chars
          (by cases escape <;> simp [WrittenAttribute.marker, Nesting.delimiters])
      exact hm.append  (Nesting.State.carries_solid (WrittenAttribute.spec_of_isSolid hso hv).2)
  exact hla.append hv

/-- **A list in parentheses** under the lexer, by what the reader makes of its inside. -/
theorem advance_list (hh : env.hooks = []) {body : List Char}
    (hr : s.rest = '(' :: (body ++ ')' :: more)) (hbo : Nesting.State.Carries body)
    {after : Lexer}
    (hre : env.readAttributes
      { line := s.line, start := s.column + 1, valueStart := s.column + 1 }
      (({ s with rest := more }.push .startAttributes).advanceColumn 1) body = .ok after) :
    env.advance s = .ok (true,
      ({ after with line := s.line + body.count '\n' }.push .endAttributes).advanceColumn 1) := by
  have hf : env.rules.filter (·.1.fits s.rest) = [(.attributes, env.attributes)] := by
    rw [hr]
    rfl
  refine advance_eq hh [] _ hf (by simp) ?_ (by simp)
  have hb : env.bracketed (s.push .startAttributes) 0 = .ok body := by
    obtain ⟨next, hn, hid⟩ := hbo {} Nesting.State.idle_empty
    have hs : Nesting.scanUntilChar ')' (body ++ ')' :: more) = .ok (body, ')' :: more) :=
      Nesting.State.scanUntilFrom_closer rfl more hn hid.stack
    have hc : ((s.push .startAttributes).rest.drop 0).head?.bind closer? = some ')' := by
      rw [show (s.push .startAttributes).rest = _ from hr]
      rfl
    have ht : (s.push .startAttributes).rest.drop (0 + 1) = body ++ ')' :: more := by
      rw [show (s.push .startAttributes).rest = _ from hr]
      rfl
    unfold bracketed
    rw [hc]
    dsimp only
    rw [ht, hs]
  have hd : s.rest.drop (body.length + 2) = more := by
    rw [hr, drop_succ_cons, ← singleton_append, ← append_assoc]
    exact drop_left' (by simp)
  have hi : ((s.push .startAttributes).consume (body.length + 2)).advanceColumn 1 =
      ({ s with rest := more }.push .startAttributes).advanceColumn 1 := by
    show ({ s with rest := s.rest.drop _, column := _, tokens := _ } : Lexer) = _
    rw [hd]
    rfl
  dsimp only
  unfold attributes
  rw [hr]
  dsimp only
  rw [hb]
  show (env.readAttributes _ _ _).bind _ = _
  rw [hi]
  exact congrArg (Except.bind · _) hre

end Setting
end PugTemplate
