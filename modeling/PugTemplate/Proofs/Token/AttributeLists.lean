import PugTemplate.Proofs.Token.AttributeReading
import PugTemplate.Proofs.Token.Offside
/-!
# Lists of quoted attributes

The reader of attributes keeps its own account of where it is: the place where the attribute started
that is being read, and the column of the current character. For attributes whose values are plain
strings, both are those of the text.
-/

namespace PugTemplate

open List Lexer

/-! ## Attributes -/

/-- A character that stands for itself in a string on one line. -/
def isStringPart (c : Char) : Bool := c != '\'' && c != '\\' && c != '\n' && c != '\r'

/-- An attribute with a string as its value. -/
structure QuotedAttribute where
  name : String
  value : String
  name_ne : name.toList ≠ [] := by decide
  name_parts : name.toList.all isAttributePart = true := by decide +kernel
  value_parts : value.toList.all isStringPart = true := by decide +kernel

namespace QuotedAttribute

def literal (a : QuotedAttribute) : String := "'" ++ a.value ++ "'"

def kind (a : QuotedAttribute) : TokenKind := .attribute a.name (.expression a.literal) true

/-- The attributes of a list, with a space between them. -/
def cells : List QuotedAttribute → List Cell
  | [] => []
  | a :: as => { kind := a.kind } :: as.map fun a => { gap := 1, kind := a.kind }

theorem toList_literal (a : QuotedAttribute) :
    a.literal.toList = '\'' :: (a.value.toList ++ ['\'']) := by
  simp [literal]

theorem spelling_kind (a : QuotedAttribute) (gap : Nat) :
    ({ gap, kind := a.kind } : Cell).spelling = a.name.toList ++ '=' :: a.literal.toList := rfl

def toWritten (a : QuotedAttribute) : WrittenAttribute :=
  { label := .plain a.name.toList, value := some (true, a.literal.toList) }

end QuotedAttribute

/-- A text goes on being solid behind a character that leads to these levels. -/
theorem isSolid_of_leads {s : Nesting.State} {c : Char} {cs : List Char}
    {levels : List Nesting.Context} {t : Nesting.Trail} (h : s.Leads [c] levels false t)
    (hsl : c ≠ '/' ∨ s.isString)
    (hp : (s.stack ≠ [] ∧ levels ≠ []) ∨ (Text.isBlank c = false ∧ c ≠ ','))
    (hr : ∀ next : Nesting.State, next.Shows levels false t → next.isSolid cs) :
    s.isSolid (c :: cs) := by
  obtain ⟨next, hn, hs⟩ := h
  rw [Nesting.State.pushAll_cons, Option.bind_eq_some_iff] at hn
  obtain ⟨mid, hm, hsa⟩ := hn
  obtain rfl : mid = next := Option.some.inj hsa
  have hi : ((s.isNesting false && mid.isNesting false) ||
      !(Text.isBlank c || c == ',')) = true := by
    simpa [Nesting.State.isNesting, hs.stack] using hp
  rw [Nesting.State.isSolid, hm]
  dsimp only
  rw [hi, hr mid hs]
  simpa using hsl

theorem isSolid_string {cs : List Char} (hcs : ∀ c ∈ cs, isStringPart c) :
    ({} : Nesting.State).isSolid ('\'' :: (cs ++ ['\''])) := by
  have hi : ∀ (s : Nesting.State) (t : Nesting.Trail), s.Shows [.singleQuote] false t →
      s.isSolid (cs ++ ['\'']) := by
    induction cs with
    | nil =>
      intro s t hs
      refine isSolid_of_leads (Nesting.State.leads_quoted_end .single hs (by simp))
        (.inl (by decide)) (.inr (by decide +kernel)) fun next hn => ?_
      exact isEmpty_iff.mpr hn.stack
    | cons c cs ih =>
      intro s t hs
      obtain ⟨hc, hcs⟩ := forall_mem_cons.mp hcs
      simp only [isStringPart, Bool.and_eq_true, bne_iff_ne] at hc
      refine isSolid_of_leads (Nesting.State.leads_quoted_char .single hs hc.1.1.1 hc.1.1.2)
        (.inr ?_) (.inl (by simp [hs.stack])) fun next hn => ih hcs next _ hn
      simp [Nesting.State.isString, Nesting.State.current, hs.stack]
  exact isSolid_of_leads
    (Nesting.State.leads_quote (t := {}) ⟨rfl, rfl, rfl, rfl, rfl⟩ rfl (by simp) .single (by simp))
    (.inl (by decide)) (.inr (by decide +kernel)) fun next hn => hi next _ hn

theorem QuotedAttribute.isSolid (a : QuotedAttribute) : a.toWritten.isSolid := by
  have hs := isSolid_string (all_eq_true.mp a.value_parts)
  show (!a.literal.toList.isEmpty && ({} : Nesting.State).isSolid a.literal.toList) = true
  rw [a.toList_literal, hs]
  rfl

theorem QuotedAttribute.isLegible (a : QuotedAttribute) (lead : List Char) :
    a.toWritten.isLegible lead := by
  have hp := all_eq_true.mp a.name_parts
  obtain ⟨c, cs, hn⟩ := exists_cons_of_ne_nil a.name_ne
  have hpl : (WrittenName.plain a.name.toList).isPlain := by
    rw [hn] at hp ⊢
    rw [WrittenName.isPlain, Bool.and_eq_true, all_eq_true]
    exact ⟨hp c (mem_cons_self ..), fun d hd => by simp [hp d (mem_cons_of_mem _ hd)]⟩
  exact Bool.and_eq_true_iff.mpr ⟨hpl, a.isSolid⟩

/-! ## Attributes under the reader -/

namespace Setting

variable {env : Setting} {r : AttributeReader} {s : Lexer} {more : List Char}

theorem not_mem_cells {c : Char} (hc : isAttributePart c = false ∧ isStringPart c = false)
    (hma : c ≠ '=' ∧ c ≠ '\'' ∧ c ≠ ' ') (as : List QuotedAttribute) :
    c ∉ Cell.line (QuotedAttribute.cells as) := by
  have hce : ∀ (a : QuotedAttribute) (gap : Nat), c ∉ Cell.text { gap, kind := a.kind } := by
    intro a gap hm
    rw [Cell.text, a.spelling_kind, a.toList_literal] at hm
    have hn : c ∉ a.name.toList := fun h =>
      absurd (all_eq_true.mp a.name_parts c h) (by simp [hc.1])
    have hv : c ∉ a.value.toList := fun h =>
      absurd (all_eq_true.mp a.value_parts c h) (by simp [hc.2])
    simp [hn, hv, hma] at hm
  intro hm
  obtain ⟨cell, hm, ht⟩ := mem_flatMap.mp hm
  cases as with
  | nil => exact absurd hm not_mem_nil
  | cons a as =>
    rcases mem_cons.mp hm with rfl | hm
    · exact hce a 0 ht
    · obtain ⟨b, -, rfl⟩ := mem_map.mp hm
      exact hce b 1 ht

theorem readAttributes_attribute (h : Fresh r) (hl : r.line = s.line) (a : QuotedAttribute)
    (hm : ∀ c ∈ more.head?, c = ' ') :
    ∃ next, Behind a.toWritten r.escape next ∧ next.line = s.line ∧
      env.readAttributes r s (a.toWritten.chars ++ more) =
        env.readAttributes next (s.advanceColumn a.toWritten.chars.length) more ∧
      finished next (s.advanceColumn a.toWritten.chars.length) = s.past [{ kind := a.kind }] := by
  obtain ⟨next, s', hco, hb, hs⟩ := @covers_attribute env r s more h []
    (by simp) a.toWritten (a.isLegible []) (fun c hc => by rw [hm c hc]; rfl)
  have hbr : '\n' ∉ a.toWritten.chars := by
    have hce := not_mem_cells (c := '\n') (by decide) (by decide) [a]
    rwa [show Cell.line (QuotedAttribute.cells [a]) = a.toWritten.chars ++ [] from rfl,
      append_nil] at hce
  obtain ⟨rfl, hn⟩ := hco.straight hbr
  have ht : next.token = a.kind := by
    refine (token_of_behind a.isSolid hb).trans ?_
    show TokenKind.attribute (String.ofList a.name.toList) (.expression (String.ofList _)) _ = _
    rw [String.ofList_toList, String.ofList_toList]
    rfl
  refine ⟨next, hb, hn.trans hl, hco.read, ?_⟩
  rw [finished, ht, hs rfl rfl, hn, hl, past_single]
  rfl

theorem readAttributes_list (h : Fresh r) (hl : r.line = s.line) {a : QuotedAttribute}
    {others : List QuotedAttribute}
    (ha : ∀ b ∈ a :: others, Accepts env.validator b.toWritten) :
    env.readAttributes r s (Cell.line (QuotedAttribute.cells (a :: others))) =
      .ok (s.past (QuotedAttribute.cells (a :: others))) := by
  induction others generalizing a r s with
  | nil =>
    obtain ⟨next, hne, -, hr, hd⟩ :=
      @readAttributes_attribute env r s [] h hl a (by simp)
    show env.readAttributes r s (a.toWritten.chars ++ []) = .ok (s.past [_])
    rw [hr, readAttributes_end hne (ha a (mem_cons_self ..)), hd]
  | cons b others ih =>
    let tail : List Cell := others.map fun b => { gap := 1, kind := b.kind }
    obtain ⟨next, hne, hn, hr, hd⟩ := @readAttributes_attribute env r s
      (' ' :: (b.toWritten.chars ++ Cell.line tail)) h hl a (by simp)
    have hs := @readAttributes_separator env next
      (s.advanceColumn a.toWritten.chars.length) (Cell.line tail) a.toWritten b.toWritten r.escape hne
      (ha a (mem_cons_self ..)) ' ' (.inr rfl) [] (by simp) (b.isLegible [])
    rw [hd] at hs
    -- The next attribute starts behind the space.
    have hre := @ih next.next ((s.past [{ kind := a.kind }]).advanceColumn 1) ⟨rfl, rfl, rfl⟩
      (by exact hn) b
      fun c hc => ha c (mem_cons_of_mem _ hc)
    have hce : QuotedAttribute.cells (a :: b :: others) =
        [{ kind := a.kind }] ++ { gap := 1, kind := b.kind } :: tail := rfl
    show env.readAttributes r s (a.toWritten.chars ++
      ' ' :: (b.toWritten.chars ++ Cell.line tail)) = _
    rw [hr, hce, past_append, past_gap]
    exact hs.trans hre

/-! ## Lists under the lexer -/

def listCells (as : List QuotedAttribute) : List Cell :=
  { kind := .startAttributes } :: (QuotedAttribute.cells as ++ [{ kind := .endAttributes }])

theorem line_listCells (as : List QuotedAttribute) (more : List Char) :
    Cell.line (listCells as) ++ more =
      '(' :: (Cell.line (QuotedAttribute.cells as) ++ ')' :: more) := by
  rw [listCells, Cell.line_cons, Cell.line_append, append_assoc, append_assoc]
  rfl

theorem isSome_spelling?_listCells (as : List QuotedAttribute) :
    ∀ c ∈ listCells as, c.kind.spelling?.isSome := by
  have hce : ∀ c ∈ QuotedAttribute.cells as, c.kind.spelling?.isSome := by
    cases as with
    | nil => exact fun c hc => absurd hc not_mem_nil
    | cons a as => exact forall_mem_cons.mpr ⟨rfl, forall_mem_map.mpr fun _ _ => rfl⟩
  refine forall_mem_cons.mpr ⟨rfl, ?_⟩
  exact forall_mem_append.mpr ⟨hce, forall_mem_singleton.mpr rfl⟩

theorem carries_cells (as : List QuotedAttribute) :
    Nesting.State.Carries (Cell.line (QuotedAttribute.cells as)) := by
  have ha (b : QuotedAttribute) : Nesting.State.Carries b.toWritten.chars :=
    carries_attribute (b.isLegible [])
  have ho : ∀ bs : List QuotedAttribute,
      Nesting.State.Carries (Cell.line (bs.map fun b => { gap := 1, kind := b.kind })) := by
    intro bs
    induction bs with
    | nil => exact Nesting.State.carries_balanced .nil
    | cons b bs ih =>
      have hs : Nesting.State.Carries [' '] := Nesting.State.carries_chars (by simp [Nesting.delimiters])
      exact (hs.append (ha b)).append ih
  cases as with
  | nil => exact ho []
  | cons a as => exact (ha a).append (ho as)

/-- **A list of attributes in parentheses** is read as its tokens, each where it is spelled. -/
theorem advance_attributes (hh : env.hooks = []) {as : List QuotedAttribute}
    (hr : s.rest = Cell.line (listCells as) ++ more)
    (hv : ∀ a ∈ as, env.validator a.literal = none) :
    env.advance s = .ok (true, { s with rest := more }.past (listCells as)) := by
  have hc : (Cell.line (QuotedAttribute.cells as)).count '\n' = 0 :=
    count_eq_zero.mpr (not_mem_cells (by decide) (by decide) as)
  -- The reader starts behind the parenthesis.
  let inside : Lexer := ({ s with rest := more }.push .startAttributes).advanceColumn 1
  have hre : env.readAttributes
      { line := s.line, start := s.column + 1, valueStart := s.column + 1 } inside
      (Cell.line (QuotedAttribute.cells as)) = .ok (inside.past (QuotedAttribute.cells as)) := by
    cases as with
    | nil => rfl
    | cons a as =>
      refine readAttributes_list ⟨rfl, rfl, rfl⟩ rfl fun b hb value hva => ?_
      cases hva
      rw [String.ofList_toList, hv b hb]
  have hp : { s with rest := more }.past (listCells as) =
      ((inside.past (QuotedAttribute.cells as)).push .endAttributes).advanceColumn 1 := by
    rw [listCells, ← singleton_append, past_append, past_append]
    rfl
  rw [advance_list hh (hr.trans (line_listCells as more)) (carries_cells as) hre, hc, hp]
  rfl

end Setting
end PugTemplate
