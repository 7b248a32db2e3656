import PugTemplate.Proofs.Token.AttributeReading
import PugTemplate.Proofs.Token.Outline
/-!
# Lists of written attributes

A list of attributes is split where its separators are. Commas, white space, quotes and brackets
inside of values do not separate, and a comma or white space between attributes always does. The
head of a tag is its name with classes, ids and such a list.
-/

namespace PugTemplate

open List Bool

open AttributeReader (isSpace continuesName stripQuotes)

/-- What separates attributes: a comma or a blank, and any white space behind it. -/
def isSeparator : List Char → Bool
  | d :: lead => (d == ',' || isSpace d) && lead.all isSpace
  | [] => false

theorem exists_of_isSeparator {gap : List Char} (h : isSeparator gap) :
    ∃ d lead, gap = d :: lead ∧ (d = ',' ∨ isSpace d) ∧ ∀ c ∈ lead, isSpace c := by
  cases gap with
  | nil => cases h
  | cons d lead =>
    rw [isSeparator, and_eq_true, all_eq_true] at h
    exact ⟨d, lead, rfl, by simpa using h.1, h.2⟩

namespace WrittenAttribute

/-- The attribute is read as it is meant behind a separator. -/
def follows (gap : List Char) (a : WrittenAttribute) : Bool := isSeparator gap && a.isLegible gap.tail

/-- Attributes with the separators before them. -/
def itemChars (items : List (List Char × WrittenAttribute)) : List Char :=
  items.flatMap fun item => item.1 ++ item.2.chars

end WrittenAttribute

namespace Setting

open WrittenAttribute (itemChars)

variable {env : Setting} {r : AttributeReader} {s : Lexer}

theorem readAttributes_items (h : Fresh r) {lead : List Char} (hl : ∀ c ∈ lead, isSpace c)
    {first : WrittenAttribute} (hf : first.isLegible lead)
    {items : List (List Char × WrittenAttribute)} (hi : ∀ item ∈ items, item.2.follows item.1)
    (hac : ∀ a ∈ first :: items.map (·.2), Accepts env.validator a) :
    ∃ line column tokens, env.readAttributes r s (lead ++ first.chars ++ itemChars items) =
        .ok { s with line, column, tokens := tokens ++ s.tokens } ∧
      tokens.reverse.map Token.kind = first.kind r.escape :: items.map (·.2.kind false) := by
  induction items generalizing r s lead first with
  | nil =>
    obtain ⟨r', s', hco, hb, -⟩ := @covers_attribute env r s [] h lead hl first hf (by simp)
    obtain ⟨line, column, rfl⟩ := hco.frame
    refine ⟨r'.line, column, [⟨r'.token, ⟨line, r'.start⟩⟩], ?_, ?_⟩
    · exact hco.read.trans (readAttributes_end hb (hac first (mem_cons_self ..)))
    · exact congrArg ([·]) (token_of_behind (and_eq_true_iff.mp hf).2 hb)
  | cons item items ih =>
    obtain ⟨gap, a⟩ := item
    obtain ⟨hit, hr⟩ := forall_mem_cons.mp hi
    obtain ⟨hg, ha⟩ := and_eq_true_iff.mp hit
    obtain ⟨d, lead', rfl, hd, hl'⟩ := exists_of_isSeparator hg
    obtain ⟨hacc, hac⟩ := forall_mem_cons.mp hac
    have ht : itemChars ((d :: lead', a) :: items) =
        d :: (lead' ++ a.chars ++ itemChars items) := rfl
    obtain ⟨r', s', hco, hb, -⟩ := @covers_attribute env r s
      (itemChars ((d :: lead', a) :: items)) h lead hl first hf (by
        rintro c hc
        cases hc
        rcases hd with rfl | hd
        · rfl
        · simp [hd])
    obtain ⟨line, column, rfl⟩ := hco.frame
    -- behind the separator the reader is fresh again
    obtain ⟨r'', line', column', hfr, hes, hp⟩ : ∃ r'' line' column', Fresh r'' ∧
        r''.escape = false ∧ r'.next.pass (finished r' { s with line, column }) d =
          (r'', { finished r' { s with line, column } with line := line', column := column' }) := by
      unfold AttributeReader.pass
      split <;> exact ⟨_, _, _, ⟨rfl, rfl, rfl⟩, rfl, rfl⟩
    obtain ⟨line'', column'', tokens, hre, hk⟩ :=
      ih hfr hl' ha hr hac
    refine ⟨line'', column'', tokens ++ [⟨r'.token, ⟨line, r'.start⟩⟩], ?_, ?_⟩
    · rw [hco.read, ht, readAttributes_separator hb hacc hd hl' ha, hp, hre]
      simp [finished, Lexer.pushAt]
    · rw [hes] at hk
      rw [reverse_append, ← token_of_behind (and_eq_true_iff.mp hf).2 hb]
      exact congrArg (r'.token :: ·) hk

theorem carries_items {lead : List Char} (hl : ∀ c ∈ lead, isSpace c)
    {first : WrittenAttribute} (hf : first.isLegible lead)
    {items : List (List Char × WrittenAttribute)} (hi : ∀ item ∈ items, item.2.follows item.1) :
    Nesting.State.Carries (lead ++ first.chars ++ itemChars items) := by
  have hs : ∀ cs : List Char, (∀ c ∈ cs, c = ',' ∨ isSpace c) → Nesting.State.Carries cs := by
    refine fun cs hcs => Nesting.State.carries_chars fun c hc => ?_
    rcases hcs c hc with rfl | hsp
    · decide
    · simp only [isSpace, or_eq_true, beq_iff_eq] at hsp
      rcases hsp with (rfl | rfl) | rfl <;> decide
  have ho : Nesting.State.Carries (itemChars items) := by
    induction items with
    | nil => exact Nesting.State.carries_balanced .nil
    | cons item items ih =>
      obtain ⟨hit, hi⟩ := forall_mem_cons.mp hi
      obtain ⟨hg, ha⟩ := and_eq_true_iff.mp hit
      obtain ⟨d, lead', hg, hd, hl'⟩ := exists_of_isSeparator hg
      refine Nesting.State.Carries.append ((hs _ ?_).append (carries_attribute ha)) (ih hi)
      rw [hg]
      exact forall_mem_cons.mpr ⟨hd, fun c hc => .inr (hl' c hc)⟩
  exact ((hs lead fun c hc => .inr (hl c hc)).append (carries_attribute hf)).append ho

end Setting

/-! ## Heads of tags -/

/-- A class or an id behind the name of a tag. -/
inductive Shorthand where
  | className (name : String) (h : Pattern.className? name.toList = some name.toList)
  | idName (name : String) (h : Pattern.name? name.toList = some name.toList)

namespace Shorthand

def chars : Shorthand → List Char
  | className name _ => '.' :: name.toList
  | idName name _ => '#' :: name.toList

def kind : Shorthand → TokenKind
  | className name _ => .class name
  | idName name _ => .id name

end Shorthand

/-- Attributes with what stands before them: white space before the first one, and separators before
the others. -/
def isWrittenList : List (List Char × WrittenAttribute) → Bool
  | [] => true
  | (lead, first) :: items =>
    lead.all isSpace && first.isLegible lead && items.all fun item => item.2.follows item.1

/-- The tokens of a list. Only the first attribute is to be escaped even without a value. -/
def listKinds : List (List Char × WrittenAttribute) → List TokenKind
  | [] => []
  | (_, first) :: items => first.kind true :: items.map (·.2.kind false)

/-- A tag with classes, ids and a list of attributes. -/
structure WrittenTag where
  name : String
  marks : List Shorthand := []
  attributes : Option (List (List Char × WrittenAttribute)) := none
  /-- No rule for a keyword reads the name. -/
  name_free : Pattern.isFreeName name.toList = true := by decide +kernel
  attributes_written : ∀ items ∈ attributes, isWrittenList items = true := by decide +kernel

namespace WrittenTag

def chars (head : WrittenTag) : List Char :=
  head.name.toList ++ (head.marks.flatMap Shorthand.chars ++
    head.attributes.elim [] fun items => '(' :: (WrittenAttribute.itemChars items ++ [')']))

def kinds (head : WrittenTag) : List TokenKind :=
  .tag head.name :: (head.marks.map Shorthand.kind ++
    head.attributes.elim [] fun items => .startAttributes :: (listKinds items ++ [.endAttributes]))

/-- The validator accepts the values of the attributes. -/
def Accepted (validator : Validator) (head : WrittenTag) : Prop :=
  ∀ items ∈ head.attributes, ∀ item ∈ items, Setting.Accepts validator item.2

end WrittenTag

namespace Setting

open WrittenAttribute (itemChars)

variable {env : Setting} {more : List Char} {items : List (List Char × WrittenAttribute)}

theorem readAttributes_written {r : AttributeReader} (h : Fresh r) (hes : r.escape)
    (s : Lexer) (hi : isWrittenList items)
    (ha : ∀ item ∈ items, Accepts env.validator item.2) : ∃ line column tokens,
      env.readAttributes r s (itemChars items) =
        .ok { s with line, column, tokens := tokens ++ s.tokens } ∧
      tokens.reverse.map Token.kind = listKinds items := by
  cases items with
  | nil =>
    refine ⟨s.line, s.column, [], ?_, rfl⟩
    have hu : r.isUnnamed := by rw [AttributeReader.isUnnamed, h.name]; rfl
    show env.readAttributes r s [] = _
    rw [readAttributes, mark_of_unnamed hu, if_pos (by exact hu)]
    rfl
  | cons item items =>
    simp only [isWrittenList, and_eq_true, all_eq_true] at hi
    obtain ⟨line, column, tokens, hr, hk⟩ := @readAttributes_items env r s h item.1
      hi.1.1 item.2 hi.1.2 items hi.2 (forall_mem_map.mpr ha)
    exact ⟨line, column, tokens, hr, hk.trans (by rw [hes]; rfl)⟩

theorem carries_written (hi : isWrittenList items) : Nesting.State.Carries (itemChars items) := by
  cases items with
  | nil => exact Nesting.State.carries_balanced .nil
  | cons item items =>
    simp only [isWrittenList, and_eq_true, all_eq_true] at hi
    exact carries_items hi.1.1 hi.1.2 hi.2

theorem lexes_list (hh : env.hooks = []) (hi : isWrittenList items)
    (ha : ∀ item ∈ items, Accepts env.validator item.2) (indents : List Nat) :
    env.Lexes ('(' :: (itemChars items ++ ')' :: more)) indents
      (.startAttributes :: (listKinds items ++ [.endAttributes])) more indents := by
  refine .step hh (by simp; omega) fun s p tokens hs => ?_
  let inside := ({ s with rest := more }.push .startAttributes).advanceColumn 1
  obtain ⟨line, column, new, hr, hk⟩ := readAttributes_written
    (r := { line := s.line, start := s.column + 1, valueStart := s.column + 1 }) ⟨rfl, rfl, rfl⟩ rfl
    inside hi ha
  let closed : Lexer := { inside with
    line := s.line + (itemChars items).count '\n', column, tokens := new ++ inside.tokens }
  refine ⟨_, _, ⟨.startAttributes, s.position⟩ :: (new.reverse ++ [⟨.endAttributes, closed.position⟩]),
    advance_list hh hs.rest_eq (carries_written hi) hr,
    ⟨rfl, hs.indents_eq, rfl, ?_, hs.style_ne, hs.interpolating, hs.running⟩, by simp [← hk]⟩
  simp [← hs.tokens_eq, closed, inside, Lexer.push, Lexer.pushAt, Lexer.advanceColumn, Lexer.position]

theorem lexes_marks (hh : env.hooks = []) (marks : List Shorthand) (indents : List Nat)
    (hm : Delimited more) :
    env.Lexes (marks.flatMap Shorthand.chars ++ more) indents (marks.map Shorthand.kind) more indents ∧
      Delimited (marks.flatMap Shorthand.chars ++ more) := by
  induction marks with
  | nil => exact ⟨.refl, hm⟩
  | cons mark marks ih =>
    rw [flatMap_cons, append_assoc]
    cases mark with
    | className name hn =>
      have hc := (reads_class hh hn ih.2).lexes indents
      rw [show Cell.line [{ kind := .class name }] = '.' :: name.toList from append_nil _] at hc
      exact ⟨hc.trans ih.1, by rintro c ⟨⟩; rfl⟩
    | idName name hn =>
      exact ⟨(lexes_idName hh indents hn ih.2).trans ih.1, by rintro c ⟨⟩; rfl⟩

theorem lexes_head (hh : env.hooks = []) {head : WrittenTag} (ha : head.Accepted env.validator)
    (indents : List Nat) (hmo : Delimited more) :
    env.Lexes (head.chars ++ more) indents head.kinds more indents := by
  obtain ⟨name, marks, attributes, hn, hw⟩ := head
  obtain ⟨list, kinds, hli, hk, hen, hl⟩ : ∃ list kinds,
      (attributes.elim [] fun items => '(' :: (itemChars items ++ [')'])) = list ∧
      (attributes.elim [] fun items => .startAttributes :: (listKinds items ++ [.endAttributes])) =
        kinds ∧ Delimited (list ++ more) ∧ env.Lexes (list ++ more) indents kinds more indents := by
    cases attributes with
    | none => exact ⟨_, _, rfl, rfl, hmo, .refl⟩
    | some items =>
      refine ⟨_, _, rfl, rfl, by rintro c ⟨⟩; rfl, ?_⟩
      simpa using lexes_list hh (hw items rfl) (ha items rfl) indents
  obtain ⟨hma, hm⟩ := lexes_marks hh marks indents hen
  have ht := (reads_tag hh hn hm).lexes indents
  rw [show Cell.line [{ kind := .tag name }] = name.toList from append_nil _] at ht
  rw [WrittenTag.chars, WrittenTag.kinds, hli, hk, append_assoc, append_assoc]
  exact ht.trans (hma.trans hl)

theorem tokenize_items (hho : env.hooks = []) (hi : env.interpolated = false)
    {tag lead : List Char} (hta : Pattern.isFreeName tag)
    (hl : ∀ c ∈ lead, isSpace c) {first : WrittenAttribute}
    (hf : first.isLegible lead) {items : List (List Char × WrittenAttribute)}
    (hit : ∀ item ∈ items, item.2.follows item.1)
    (hac : ∀ a ∈ first :: items.map (·.2), Accepts env.validator a) {source : String}
    (hs : normalize source = tag ++ '(' :: (lead ++ first.chars ++ itemChars items ++ [')'])) :
    ∃ tokens kinds, tokenize env source = .ok tokens ∧
      tokens.map Token.kind = [.tag (String.ofList tag), .startAttributes] ++ kinds ++
        [.endAttributes, .eos] ∧
      List.Forall₂ WrittenAttribute.Yields (first :: items.map (·.2)) kinds := by
  have hw : isWrittenList ((lead, first) :: items) := by
    rw [isWrittenList, all_eq_true.mpr hl, hf, all_eq_true.mpr hit]
    rfl
  let head : WrittenTag :=
    { name := String.ofList tag
      attributes := some ((lead, first) :: items)
      name_free := by rwa [String.toList_ofList]
      attributes_written := by rintro _ ⟨⟩; exact hw }
  have ha : head.Accepted (env.nesting maxInterpolationDepth).validator := by
    rintro _ ⟨⟩
    exact forall_mem_map.mp hac
  have ho := (hooks_nesting env maxInterpolationDepth).trans hho
  have hh := (lexes_head ho ha [] (by simp [Delimited])).comes
    (comes_nil ho ((interpolated_nesting env _).trans hi) [])
  have hte : head.chars ++ [] = normalize source := by
    rw [hs]
    simp [head, WrittenTag.chars, itemChars]
  rw [hte] at hh
  have hc := hh.tokenize
  cases ht : tokenize env source with
  | error d =>
    rw [ht] at hc
    exact absurd hc.1 (by simp [offside?])
  | ok tokens =>
    rw [ht] at hc
    refine ⟨tokens, listKinds ((lead, first) :: items), rfl, ?_, ?_⟩
    · have hk := Option.some.inj hc
      rw [← hk]
      simp [head, WrittenTag.kinds]
    · refine .cons (first.yields_kind true) ?_
      simp [forall₂_map_left_iff, forall₂_map_right_iff, WrittenAttribute.yields_kind]

end Setting

/-! ## Plain names -/

/-- **Lists of attributes are split exactly.** Attributes with plain names and solid values, with a
comma or white space between them, are read one by one: each with its name and its value, which is
escaped if its marker is an equals sign. -/
theorem tokenize_attributes {file : Option String} {validator : Validator} {source : String}
    {first : WrittenAttribute} {items : List (List Char × WrittenAttribute)}
    (hsource : normalize source =
      "a(".toList ++ (first.chars ++ WrittenAttribute.itemChars items) ++ ")".toList)
    (hgaps : ∀ item ∈ items, isSeparator item.1 = true)
    (hplain : ∀ a ∈ first :: items.map (·.2), a.label.isPlain = true)
    (hsolid : ∀ a ∈ first :: items.map (·.2), a.isSolid = true)
    (haccepts : ∀ a ∈ first :: items.map (·.2), Setting.Accepts validator a) :
    ∃ tokens kinds, tokenize { file, validator } source = .ok tokens ∧
      tokens.map Token.kind = [.tag "a", .startAttributes] ++ kinds ++ [.endAttributes, .eos] ∧
      List.Forall₂ WrittenAttribute.Yields (first :: items.map (·.2)) kinds := by
  have hlegible : ∀ a ∈ first :: items.map (·.2), ∀ lead, a.isLegible lead = true := by
    intro a ha lead
    have hlabel := hplain a ha
    refine Bool.and_eq_true_iff.mpr ⟨?_, hsolid a ha⟩
    cases hname : a.label with
    | plain name => rwa [hname] at hlabel
    | quoted quote name => rw [hname] at hlabel; cases hlabel
  have hitems : ∀ item ∈ items, item.2.follows item.1 = true := fun item hitem =>
    Bool.and_eq_true_iff.mpr ⟨hgaps item hitem,
      hlegible item.2 (List.mem_cons_of_mem _ (List.mem_map_of_mem hitem)) _⟩
  exact @Setting.tokenize_items { file, validator } rfl rfl ['a'] [] (by decide +kernel) (by simp)
    first (hlegible first (List.mem_cons_self ..) []) items hitems haccepts source hsource

/-- Brackets, commas, white space, quotes and a template inside of values. -/
theorem tokenize_attributes_nested :
    ∃ tokens escape, tokenize { validator := fun _ => none }
        "a(b-c='\\', d' e,\n f!=[g, 'h]']\ti=\x60j $\x7bk, \x7b\x7d\x7d\x60)" = .ok tokens ∧
      tokens.map Token.kind = [.tag "a", .startAttributes,
        .attribute "b-c" (.expression "'\\', d'") true, .attribute "e" .bare escape,
        .attribute "f" (.expression "[g, 'h]']") false,
        .attribute "i" (.expression "\x60j $\x7bk, \x7b\x7d\x7d\x60") true, .endAttributes,
        .eos] := by
  obtain ⟨tokens, kinds, htokens, hkinds, hyields⟩ := @tokenize_attributes none (fun _ => none)
    "a(b-c='\\', d' e,\n f!=[g, 'h]']\ti=\x60j $\x7bk, \x7b\x7d\x7d\x60)"
    { label := .plain "b-c".toList, value := some (true, "'\\', d'".toList) }
    [(" ".toList, { label := .plain "e".toList }),
      (",\n ".toList, { label := .plain "f".toList, value := some (false, "[g, 'h]']".toList) }),
      ("\t".toList, { label := .plain "i".toList,
                      value := some (true, "\x60j $\x7bk, \x7b\x7d\x7d\x60".toList) })]
    (by decide +kernel) (by decide +kernel) (by decide +kernel) (by decide +kernel)
    (fun _ _ _ _ => rfl)
  rcases hyields with _ | ⟨hfirst, _ | ⟨⟨escape, hbare⟩, _ | ⟨hthird, _ | ⟨hlast, _ | _⟩⟩⟩⟩
  refine ⟨tokens, escape, htokens, hkinds.trans ?_⟩
  rw [show _ = _ from hfirst, hbare, show _ = _ from hthird, show _ = _ from hlast]
  rfl

/-! ## Names in quotes -/

/-- **A name in quotes is one name** as long as nothing but the parenthesis or one separator stands
before it: an attribute of that name is read for it, whatever it holds, if it is not empty and neither
starts nor ends with a blank or a quote. Behind more white space this is so only for a name that could
do without the quotes: white space, commas, equals signs and exclamation marks in it are read as if
there were none. -/
theorem tokenize_quotedNames {file : Option String} {validator : Validator} {source : String}
    {tag lead : List Char} {first : WrittenAttribute}
    {items : List (List Char × WrittenAttribute)} (htag : Pattern.isFreeName tag = true)
    (hsource : normalize source =
      tag ++ "(".toList ++ (lead ++ first.chars ++ WrittenAttribute.itemChars items) ++ ")".toList)
    (hlead : ∀ c ∈ lead, isSpace c = true) (hfirst : first.isLegible lead = true)
    (hitems : ∀ item ∈ items, item.2.follows item.1 = true)
    (haccepts : ∀ a ∈ first :: items.map (·.2), Setting.Accepts validator a) :
    ∃ tokens kinds, tokenize { file, validator } source = .ok tokens ∧
      tokens.map Token.kind = [.tag (String.ofList tag), .startAttributes] ++ kinds ++
        [.endAttributes, .eos] ∧
      List.Forall₂ WrittenAttribute.Yields (first :: items.map (·.2)) kinds :=
  @Setting.tokenize_items { file, validator } rfl rfl tag lead htag hlead first hfirst items hitems
    haccepts source (by rw [hsource]; simp)

/-- A name with white space, a comma and operators behind a comma, and one with another quote behind
white space. -/
theorem tokenize_quotedNames_mixed :
    ∃ tokens, tokenize { validator := fun _ => none } "p(\n '\"b'=1,\"c', d=!\"!=2)" = .ok tokens ∧
      tokens.map Token.kind = [.tag "p", .startAttributes,
        .attribute "\"b" (.expression "1") true, .attribute "c', d=!" (.expression "2") false,
        .endAttributes, .eos] := by
  obtain ⟨tokens, kinds, htokens, hkinds, hyields⟩ := @tokenize_quotedNames none (fun _ => none)
    "p(\n '\"b'=1,\"c', d=!\"!=2)" "p".toList "\n ".toList
    { label := .quoted '\'' "\"b".toList, value := some (true, "1".toList) }
    [(",".toList, { label := .quoted '"' "c', d=!".toList, value := some (false, "2".toList) })]
    (by decide +kernel) (by decide +kernel) (List.all_eq_true.mp (by decide +kernel))
    (by decide +kernel) (by decide +kernel) (fun _ _ _ _ => rfl)
  rcases hyields with _ | ⟨hfirst, _ | ⟨hlast, _ | _⟩⟩
  refine ⟨tokens, htokens, hkinds.trans ?_⟩
  rw [show _ = _ from hfirst, show _ = _ from hlast]
  rfl

/-- Behind a space, a name in quotes ends at the space in it. -/
theorem tokenize_quotedName_behind_space :
    (tokenize {} "p( 'b c'=1)").toOption.map (·.map Token.kind) =
      some [.tag "p", .startAttributes, .attribute "b" .bare true,
        .attribute "c" (.expression "1") true, .endAttributes, .eos] := by
  decide +kernel

end PugTemplate
