import PugTemplate.Proofs.Script.Snippets
import PugTemplate.Proofs.Token.Cuts
import PugTemplate.Script.Judge
/-!
# The ends of snippets

Where a snippet ends, its last piece is the line break that is read after it, or a comment up to that
line break. So nothing is open at the end of an expression but a comment on its last line, as far as
its pieces are taken for what they are.
-/

namespace PugTemplate

open List Option Text Bool
namespace Script

open Nesting (Context Trail State)

/-! ## Parts of passages -/

namespace Passage

variable {levels after : List Context} {cs rest : List Char}

theorem split {ps qs : List Piece} (h : Passage levels cs (ps ++ qs) after rest) :
    ∃ between mid, Passage levels cs ps between mid ∧ Passage between mid qs after rest := by
  induction ps generalizing levels cs with
  | nil => exact ⟨levels, cs, .refl _ _, h⟩
  | cons p ps ih =>
    cases h with
    | step hf hr =>
      obtain ⟨between, mid, hp, hq⟩ := ih hr
      exact ⟨between, mid, .step hf hp, hq⟩

theorem of_single {p : Piece} (h : Passage levels cs [p] after rest) :
    piece? p.isRegex levels cs = some (p, after, rest) := by
  cases h with
  | step hf hr =>
    cases hr
    exact hf

end Passage

variable {levels after outer : List Context} {c b : Char} {regex : Bool} {p : Piece}
  {rest cs : List Char} {ps : List Piece}

/-- A character of code opens a level, closes the innermost one or changes nothing. -/
theorem levelsAfter_cases (h : levelsAfter levels c = some after) :
    (∃ level, after = level :: levels ∧ ∀ outer, levelsAfter outer c = some (level :: outer)) ∨
    (levels = .bracket c :: after ∧ ∀ outer, levelsAfter (.bracket c :: outer) c = some outer) ∨
    (after = levels ∧ ∀ outer, levelsAfter outer c = some outer) := by
  by_cases h1 : c = '('
  · subst h1
    exact .inl ⟨_, (some.inj h).symm, fun _ => rfl⟩
  by_cases h2 : c = '['
  · subst h2
    exact .inl ⟨_, (some.inj h).symm, fun _ => rfl⟩
  by_cases h3 : c = '{'
  · subst h3
    exact .inl ⟨_, (some.inj h).symm, fun _ => rfl⟩
  by_cases h4 : c = '\x60'
  · subst h4
    exact .inl ⟨_, (some.inj h).symm, fun _ => rfl⟩
  by_cases h5 : State.isCloser c
  · have hc : ∀ outer, levelsAfter outer c =
        if outer.head? == some (.bracket c) then some outer.tail else none := by
      simp [levelsAfter, h1, h2, h3, h4, h5]
    rw [hc] at h
    obtain ⟨hh, h⟩ := ite_none_right_eq_some.mp h
    refine .inr (.inl ⟨?_, fun outer => by rw [hc]; simp⟩)
    rw [← some.inj h]
    exact eq_cons_of_mem_head? (beq_iff_eq.mp hh)
  · have hk : ∀ outer, levelsAfter outer c = some outer := by
      simp [levelsAfter, h1, h2, h3, h4, h5]
    rw [hk] at h
    exact .inr (.inr ⟨(some.inj h).symm, hk⟩)

theorem levelsAfter_append (h : levelsAfter levels c = some after) (outer : List Context) :
    levelsAfter (levels ++ outer) c = some (after ++ outer) := by
  rcases levelsAfter_cases h with ⟨level, rfl, ho⟩ | ⟨rfl, hc⟩ | ⟨rfl, hk⟩
  · exact ho _
  · exact hc _
  · exact hk _

theorem codePiece?_append (h : codePiece? regex levels cs = some (p, after, rest))
    (outer : List Context) :
    codePiece? regex (levels ++ outer) cs = some (p, after ++ outer, rest) := by
  rcases codePiece?_cases h with ⟨body, rfl, rfl, hread, rfl, rfl⟩ | ⟨more, rfl, rfl, hmore, rfl⟩ |
    ⟨body, rfl, rfl, hread, rfl, rfl⟩ | ⟨quote, body, hquote, rfl, hread, rfl, rfl⟩ |
    ⟨c, rfl, rfl, hquote, hslash, hafter⟩
  · rw [codePiece?, if_pos rfl, hread]
    rfl
  · cases hmore
    rfl
  · rw [codePiece?, if_neg (by decide), slashPiece?, hread]
    rfl
  · rw [codePiece?, if_pos hquote, hread]
    · rfl
    · rintro rfl
      cases hquote
  · by_cases hc : c = '/'
    · subst hc
      obtain ⟨rfl, hline, hblock⟩ := hslash rfl
      cases hafter
      rw [codePiece?, if_neg (by decide), slashPiece?]
      · rintro _ rfl
        exact hline rfl
      · rintro _ rfl
        exact hblock rfl
    · rw [codePiece?, if_neg (by rw [hquote]; decide), levelsAfter_append hafter]
      · rfl
      · exact hc

theorem piece?_append (ho : isCode outer) (h : piece? regex levels cs = some (p, after, rest)) :
    piece? regex (levels ++ outer) cs = some (p, after ++ outer, rest) := by
  cases hc : isCode levels with
  | true =>
    have hc' : isCode (levels ++ outer) := by
      cases levels with
      | nil => exact ho
      | cons level levels => exact hc
    rw [piece?_code hc] at h
    rw [piece?_code hc']
    exact codePiece?_append h outer
  | false =>
    cases levels with
    | nil => cases hc
    | cons level levels =>
      obtain rfl : level = .templateQuote := by simpa [isCode] using hc
      rw [piece?_template] at h
      rw [cons_append, piece?_template]
      unfold templatePiece? at h
      split at h
      · cases h
        rfl
      · cases h
        rfl
      · next c cs hd hes =>
        cases h
        rw [templatePiece?]
        · split <;> rfl
        · exact hd
        · exact hes
      · cases h

theorem Passage.frame (ho : isCode outer) (h : Passage levels cs ps after rest) :
    Passage (levels ++ outer) cs ps (after ++ outer) rest := by
  induction h with
  | refl => exact .refl _ _
  | step hf _ ih => exact .step (piece?_append ho hf) ih

/-! ## The last piece -/

namespace Piece

def isBlankMark : Piece → Bool
  | .mark c => Text.isBlank c
  | _ => false

def isLineComment : Piece → Bool
  | .lineComment _ _ => true
  | _ => false

end Piece

def Piece.Turns (levels after : List Context) : Piece → Prop
  | .mark c => isCode levels = true ∧ levelsAfter levels c = some after
  | .string quote _ => (quote == '"' || quote == '\'') = true ∧ after = levels
  | .letter c => isCode levels = false ∧ after = if c == '\x60' then levels.tail else levels
  | .escape _ => isCode levels = false ∧ after = levels
  | .substitution => after = .bracket '}' :: levels
  | _ => isCode levels = true ∧ after = levels

theorem turns_piece? (h : piece? regex levels cs = some (p, after, rest)) :
    p.Turns levels after := by
  unfold piece? at h
  split at h
  · next hcode =>
    rcases codePiece?_cases h with ⟨body, -, -, -, rfl, rfl⟩ | ⟨more, -, -, hmore, rfl⟩ |
      ⟨body, -, -, -, rfl, rfl⟩ | ⟨quote, body, hquote, -, -, rfl, rfl⟩ | ⟨c, -, rfl, -, -, hafter⟩
    · exact ⟨hcode, rfl⟩
    · cases hmore
      exact ⟨hcode, rfl⟩
    · exact ⟨hcode, rfl⟩
    · exact ⟨hquote, rfl⟩
    · exact ⟨hcode, hafter⟩
  · next hcode =>
    have htemplate : isCode levels = false := Bool.eq_false_iff.mpr hcode
    unfold templatePiece? at h
    split at h
    · cases h
      rfl
    · cases h
      exact ⟨htemplate, rfl⟩
    · cases h
      exact ⟨htemplate, rfl⟩
    · cases h

theorem isPlainChar_of_isBlank (h : Text.isBlank c) : isPlainChar c :=
  isPlainChar_of (by decide) h

/-- **A piece of code that ends in a blank** is that blank, or a line comment. -/
theorem eq_of_blank_last (h : p.Turns levels after) (ha : isCode after)
    (hl : p.chars.getLast? = some b) (hb : Text.isBlank b) :
    after = levels ∧ (p = .mark b ∨ p.isLineComment) := by
  have hp := isPlainChar_of_isBlank hb
  cases p with
  | mark c =>
    obtain rfl : c = b := by simpa [Piece.chars] using hl
    have ht := h.2
    rw [levelsAfter_of_isPlainChar hp] at ht
    exact ⟨(some.inj ht).symm, .inl rfl⟩
  | lineComment body stop => exact ⟨h.2, .inr rfl⟩
  | blockComment body | regex body =>
    obtain rfl : '/' = b := by simpa [Piece.chars, getLast?_cons] using hl
    cases hb
  | string quote body =>
    obtain rfl : quote = b := by simpa [Piece.chars, getLast?_cons] using hl
    rcases (or_eq_true _ _).mp h.1 with hq | hq <;> (rw [beq_iff_eq.mp hq] at hb; cases hb)
  | letter c =>
    -- the text of a template goes on after a blank
    obtain rfl : c = b := by simpa [Piece.chars] using hl
    have ha' := h.2
    rw [if_neg (by simpa using ne_of_isPlainChar hp (by decide))] at ha'
    rw [ha', h.1] at ha
    cases ha
  | escape c =>
    rw [h.2, h.1] at ha
    cases ha
  | substitution =>
    obtain rfl : '{' = b := by simpa [Piece.chars] using hl
    cases hb

theorem Piece.getLast?_text_concat (ps : List Piece) (p : Piece) :
    (Piece.text (ps ++ [p])).getLast? = p.chars.getLast? := by
  rw [text_append, text_cons, text_nil, append_nil, getLast?_append]
  cases hp : p.chars.getLast? with
  | none => exact absurd (List.getLast?_eq_none_iff.mp hp) p.chars_ne_nil
  | some c => rfl

theorem Passage.blank_last {front : List Char} (h : Passage levels cs ps levels rest)
    (hc : isCode levels) (ht : Piece.text ps = front ++ [b])
    (hb : Text.isBlank b) :
    ∃ qs p mid, ps = qs ++ [p] ∧ Passage levels cs qs levels mid ∧
      (p = .mark b ∧ Piece.text qs = front ∨
        p.isLineComment ∧ piece? false levels mid = some (p, levels, rest)) := by
  rcases eq_nil_or_concat ps with rfl | ⟨qs, p, rfl⟩
  · simp at ht
  rw [concat_eq_append] at h ht ⊢
  obtain ⟨between, mid, hq, hp⟩ := h.split
  have hla : p.chars.getLast? = some b := by
    rw [← Piece.getLast?_text_concat qs, ht, getLast?_concat]
  obtain ⟨rfl, ho⟩ := eq_of_blank_last (turns_piece? hp.of_single) hc hla hb
  refine ⟨qs, p, mid, rfl, hq, ?_⟩
  rcases ho with rfl | hl
  · refine .inl ⟨rfl, ?_⟩
    simpa [Piece.chars] using ht
  · refine .inr ⟨hl, ?_⟩
    have hs := hp.of_single
    cases p with
    | lineComment body stop => exact hs
    | _ => cases hl

theorem not_mem_of_lineComment {body : List Char} {stop : Option Char}
    (h : piece? false levels cs = some (.lineComment body stop, after, rest)) : '\n' ∉ body := by
  have hc := piece?_cut h
  rw [piece?_code (turns_piece? h).1, hc] at h
  -- the body goes up to the first line break behind the slashes
  simp only [Piece.chars, cons_append, codePiece?, Bool.false_eq_true, if_false, slashPiece?,
    lineCommentPiece, some.injEq, Prod.mk.injEq, Piece.lineComment.injEq] at h
  intro hm
  rw [← h.1.1] at hm
  exact absurd (mem_takeWhile_imp hm) (by decide)

/-- The last piece that is not a blank is a line comment. -/
def endsInLineComment (ps : List Piece) : Bool :=
  (ps.reverse.dropWhile Piece.isBlankMark).head?.any Piece.isLineComment

theorem endsInLineComment_concat_mark (ps : List Piece) (hb : Text.isBlank b) :
    endsInLineComment (ps ++ [.mark b]) = endsInLineComment ps := by
  simp [endsInLineComment, Piece.isBlankMark, hb]

theorem endsInLineComment_concat (ps : List Piece) (hp : p.isBlankMark = false) :
    endsInLineComment (ps ++ [p]) = p.isLineComment := by
  simp [endsInLineComment, hp]

end Script

namespace Nesting

open Script (Piece Passage isCode piece? endsInLineComment)

/-! ## Following a snippet to its end -/

theorem Trail.followsAll_append (t : Trail) (ps qs : List Piece) :
    t.followsAll (ps ++ qs) = (t.followsAll ps && (t.afterAll ps).followsAll qs) := by
  induction ps generalizing t with
  | nil => rfl
  | cons p ps ih =>
    rw [cons_append, followsAll, ih, followsAll, Bool.and_assoc]
    rfl

theorem Trail.of_followsAll_lineComment {t : Trail} {body : List Char} {stop : Option Char}
    (h : t.followsAll [.lineComment body stop]) : t.afterSlash = false ∧ stop = some '\n' := by
  simpa [followsAll, follows] using h

/-- Blanks after a text that ends in slashes and more belong to what comes after the slashes. -/
theorem exists_of_append_blanks {before body front blanks : List Char}
    (h : before ++ ['/', '/'] ++ body = front ++ blanks)
    (hb : ∀ b ∈ blanks, Text.isBlank b) :
    ∃ part, front = before ++ '/' :: '/' :: part ∧ part ⊆ body := by
  rcases List.append_eq_append_iff.mp h with ⟨part, rfl, rfl⟩ | ⟨part, hf, rfl⟩
  · exact ⟨part, by simp, subset_append_left _ _⟩
  · rcases eq_nil_or_concat part with rfl | ⟨init, last, rfl⟩
    · exact ⟨[], by simpa using hf.symm, nil_subset _⟩
    · have hl := congrArg getLast? hf
      rw [concat_eq_append] at hl hb
      simp only [getLast?_append, getLast?_cons_cons, getLast?_singleton, some_or, some.injEq] at hl
      have hs := hb last (by simp)
      rw [← hl] at hs
      cases hs

namespace State

variable {s : State} {levels : List Context} {t : Trail} {ps : List Piece} {cs rest : List Char}
  {blanks u : List Char}

theorem leads_blanks (hs : s.Shows levels false t) (hc : isCode levels)
    (hl : ∀ level ∈ levels, level.isEnclosing)
    (hbl : ∀ b ∈ blanks, Text.isBlank b) : ∃ t', s.Leads blanks levels false t' := by
  induction blanks generalizing s t with
  | nil => exact ⟨t, hs.leads⟩
  | cons b blanks ih =>
    obtain ⟨hb, hbl⟩ := List.forall_mem_cons.mp hbl
    have hp := Script.isPlainChar_of_isBlank hb
    have hq : b ≠ '\'' ∧ b ≠ '"' :=
      ⟨Script.ne_of_isPlainChar hp (by decide), Script.ne_of_isPlainChar hp (by decide)⟩
    have hf : t.follows (.mark b) := by
      have hsl : b ≠ '/' := Script.ne_of_isPlainChar hp (by decide)
      have hst : b ≠ '*' := by
        rintro rfl
        cases hb
      simp [Trail.follows, hsl, hst]
    have hm := leads_mark hs hc hl (Script.levelsAfter_of_isPlainChar hp levels) hq hf
    obtain ⟨next, hn, hsh⟩ := hm
    obtain ⟨t', after, ha, hs'⟩ := ih hsh hbl
    exact ⟨t', after, by rw [← singleton_append, pushAll_append, hn]; exact ha, hs'⟩

/-- **A snippet without the blanks after it**: a line comment is open at its end, or nothing. -/
theorem leads_trimmed {front : List Char} (h : Passage levels cs ps levels rest)
    (hco : isCode levels) (hl : ∀ level ∈ levels, level.isEnclosing)
    (hs : s.Shows levels false t) (hf : t.followsAll ps)
    (ht : Piece.text ps = front ++ blanks) (hbl : ∀ b ∈ blanks, isBlank b)
    (hfr : ∀ c ∈ front.getLast?, isBlank c = false) :
    ∃ t', s.Leads front (if endsInLineComment ps then .lineComment :: levels else levels) false t' := by
  induction blanks using reverseRecOn generalizing ps rest with
  | nil =>
    rw [append_nil] at ht
    have hen : endsInLineComment ps = false := by
      rcases eq_nil_or_concat ps with rfl | ⟨qs, p, rfl⟩
      · rfl
      rw [concat_eq_append] at ht hf ⊢
      rw [Trail.followsAll_append, and_eq_true] at hf
      rw [← ht, Piece.getLast?_text_concat] at hfr
      cases p with
      | mark c =>
        have hbla : isBlank c = false := hfr c rfl
        exact Script.endsInLineComment_concat qs hbla
      | lineComment body stop =>
        -- it would end in the line break that ends its line
        obtain ⟨-, rfl⟩ := Trail.of_followsAll_lineComment hf.2
        have hbr := hfr '\n' (by simp [Piece.chars, getLast?_cons])
        cases hbr
      | _ => exact Script.endsInLineComment_concat qs rfl
    rw [hen, ← ht]
    exact ⟨_, leads_passage h hs hl hf⟩
  | append_singleton blanks b ih =>
    obtain ⟨hbl, hb⟩ := forall_mem_append.mp hbl
    have hb : isBlank b := hb b (mem_singleton_self b)
    obtain ⟨qs, p, mid, rfl, hq, ⟨rfl, ht'⟩ | ⟨hli, hp⟩⟩ :=
      h.blank_last hco (by rw [ht, append_assoc]) hb
    · rw [Script.endsInLineComment_concat_mark qs hb]
      rw [Trail.followsAll_append, and_eq_true] at hf
      exact ih hq hf.1 ht' hbl
    · cases p with
      | lineComment body stop =>
        rw [Script.endsInLineComment_concat qs rfl]
        rw [Trail.followsAll_append, and_eq_true] at hf
        obtain ⟨hsl, rfl⟩ := Trail.of_followsAll_lineComment hf.2
        have hcu : Piece.text qs ++ ['/', '/'] ++ body = front ++ blanks := by
          have hc : (Piece.text qs ++ ['/', '/'] ++ body) ++ ['\n'] = (front ++ blanks) ++ [b] := by
            simpa [Piece.chars] using ht
          exact (append_inj' hc rfl).1
        obtain ⟨part, rfl, hpa⟩ := exists_of_append_blanks hcu hbl
        have hbo : '\n' ∉ part := fun hm => Script.not_mem_of_lineComment hp (hpa hm)
        exact ⟨_, (leads_passage hq hs hl hf.1).trans _ fun next hn =>
          leads_openComment hn hco hl hbo hsl⟩
      | _ => cases hli

/-- The text of a snippet's pieces is the snippet, with the line break after it. -/
theorem text_of_passage (h : Passage levels (u ++ ['\n', ')']) ps levels [')']) :
    Piece.text ps = u ++ ['\n'] := by
  have hc : (u ++ ['\n']) ++ [')'] = Piece.text ps ++ [')'] := by
    rw [← h.cut, append_assoc]
    rfl
  exact (append_inj' hc rfl).1.symm

theorem trimEnd_spec (u : List Char) :
    ∃ blanks, u = trimEnd u ++ blanks ∧ (∀ b ∈ blanks, isBlank b) ∧
      ∀ c ∈ (trimEnd u).getLast?, isBlank c = false := by
  refine ⟨(u.reverse.takeWhile isBlank).reverse, ?_, ?_, ?_⟩
  · rw [trimEnd, ← reverse_append, takeWhile_append_dropWhile, reverse_reverse]
  · intro b hb
    rw [mem_reverse] at hb
    exact all_eq_true.mp all_takeWhile b hb
  · intro c hc
    rw [trimEnd, getLast?_reverse] at hc
    have hn := head?_dropWhile_not isBlank u.reverse
    rw [mem_def.mp hc] at hn
    exact hn

theorem leads_snippet (h : Passage levels (u ++ ['\n', ')']) ps levels [')'])
    (hc : isCode levels) (hl : ∀ level ∈ levels, level.isEnclosing)
    (hs : s.Shows levels false t) (hf : t.followsAll ps) :
    (∃ t', s.Leads (trimEnd u)
      (if endsInLineComment ps then .lineComment :: levels else levels) false t') ∧
    ('\n' ∉ u ∨ endsInLineComment ps = false →
      ∃ t', s.Leads u (if endsInLineComment ps then .lineComment :: levels else levels) false t') := by
  obtain ⟨blanks, hu, hb, hfr⟩ := trimEnd_spec u
  have ht : ∃ t', s.Leads (trimEnd u)
      (if endsInLineComment ps then .lineComment :: levels else levels) false t' := by
    have hte : Piece.text ps = trimEnd u ++ (blanks ++ ['\n']) := by
      rw [text_of_passage h, ← append_assoc, ← hu]
    exact leads_trimmed h hc hl hs hf hte
      (forall_mem_append.mpr ⟨hb, forall_mem_singleton.mpr rfl⟩) hfr
  refine ⟨ht, fun ho => ?_⟩
  obtain ⟨t', next, hn, hsh⟩ := ht
  -- the blanks after the snippet stay in the comment, or change nothing
  have hr : ∃ t'', next.Leads blanks
      (if endsInLineComment ps then .lineComment :: levels else levels) false t'' := by
    cases hen : endsInLineComment ps with
    | false =>
      rw [hen] at hsh
      exact leads_blanks hsh hc hl hb
    | true =>
      rw [hen] at hsh
      refine ⟨t', leads_lineBody (fun hm => ?_) hsh⟩
      rcases ho with hbr | he'
      · rw [hu] at hbr
        exact hbr (mem_append_right _ hm)
      · rw [hen] at he'
        cases he'
  obtain ⟨t'', last, hla, hs'⟩ := hr
  refine ⟨t'', last, ?_, hs'⟩
  rw [hu, pushAll_append, hn]
  exact hla

theorem push_eq_none_of_closer {c : Char} (hc : isCloser c) (hs : s.stack = []) :
    s.push c = none := by
  have hcu : s.current = none := by rw [current, hs]; rfl
  have hr : (s.feed c).1 = false :=
    (feed_eq_false_iff s c).mpr ⟨hc, Or.inl hcu, by rw [hcu]; rintro ⟨⟩⟩
  rw [push_eq_feed, hr]
  rfl

/-- **A text after which nothing is open** is cut off before a closing bracket. -/
theorem scanUntilFrom_closer {closer : Char} (hc : isCloser closer)
    (after : List Char) {next : State} (h : s.pushAll cs = some next) (hn : next.stack = []) :
    scanUntilFrom (fun rest => rest.head? == some closer) {} s (cs ++ closer :: after) =
      .ok (s.taken.reverse ++ cs, closer :: after) := by
  induction cs generalizing s with
  | nil =>
    cases h
    simp [scanUntilFrom, isNesting, hn]
  | cons c cs ih =>
    obtain ⟨mid, hm, h⟩ := bind_eq_some_iff.mp h
    -- the closing bracket would be refused where nothing is open
    have hg : ¬(s.stack = [] ∧ c = closer) := by
      rintro ⟨hs, rfl⟩
      rw [push_eq_none_of_closer hc hs] at hm
      cases hm
    have hst : ¬((false || !s.isNesting false) && (c :: (cs ++ closer :: after)).head? ==
        some closer) = true := by
      simpa [isNesting] using hg
    rw [cons_append, scanUntilFrom, if_neg hst, hm]
    simp only
    rw [ih h, taken_push hm]
    simp

end State
end Nesting

namespace Script

open Nesting (Context Trail State)

/-! ## Expressions -/

theorem endsInLineComment_eq_false {ps : List Piece} (h : ∀ p ∈ ps, p.isComment = false) :
    endsInLineComment ps = false := by
  unfold endsInLineComment
  cases hl : (ps.reverse.dropWhile Piece.isBlankMark).head? with
  | none => rfl
  | some p =>
    have hm : p ∈ ps.reverse :=
      (dropWhile_suffix Piece.isBlankMark).subset (mem_of_mem_head? hl)
    have hp := h p (mem_reverse.mp hm)
    cases p with
    | lineComment body stop => cases hp
    | _ => rfl

/-- **An expression without comments closes what it opens**, as long as each of its pieces is taken
for what it is: the slashes of divisions and regular expressions, and the braces in templates. So it
is found again between brackets. -/
theorem scan_of_accepts {parse : Parser} {snippet : String} (hlexical : parse.Lexical)
    (haccepts : parse.validator.accepts snippet = true) (hplain : parse.isPlain snippet = true)
    (hcomment : ∀ p ∈ parse.pieces snippet, p.isComment = false)
    (hfollows : ({} : Trail).followsAll (parse.pieces snippet) = true) :
    ∃ s, Nesting.scan snippet.toList = .ok s ∧ s.stack = [] ∧
      ∀ closer, State.isCloser closer = true → ∀ after,
        Nesting.scanUntilChar closer (snippet.toList ++ closer :: after) =
          .ok (snippet.toList, closer :: after) := by
  have hends := endsInLineComment_eq_false hcomment
  have hpassage := Parser.passage_of_accepts hlexical haccepts hplain
  have hleads := (State.leads_snippet hpassage rfl (by simp)
    (s := {}) ⟨rfl, rfl, rfl, rfl, rfl⟩ hfollows).2 (.inr hends)
  rw [hends] at hleads
  obtain ⟨t, s, hs, hshows⟩ := hleads
  refine ⟨s, State.scanFrom_eq_ok_iff.mpr hs, hshows.stack, fun closer hcloser after => ?_⟩
  exact State.scanUntilFrom_closer hcloser after hs hshows.stack

/-- A division by a regular expression that has a bracket in it. -/
def patternQuotient : Syntax :=
  .wrapped "a / /[)]/g" [.node { kind := "binary_expression", text := "a / /[)]/g", start := 1 }
    [.leaf "identifier" "a" 1, .mark "/" 3,
      .node { kind := "regex", text := "/[)]/g", start := 5 }
        [.mark "/" 5, .leaf "regex_pattern" "[)]" 6, .mark "/" 9, .leaf "regex_flags" "g" 10]]]

theorem scan_of_accepts_quotient :
    (Parser.only (wrap "a / /[)]/g") patternQuotient).validator.accepts "a / /[)]/g" = true ∧
    ∃ s, Nesting.scan "a / /[)]/g".toList = .ok s ∧ s.stack = [] := by
  have haccepts :
      (Parser.only (wrap "a / /[)]/g") patternQuotient).validator.accepts "a / /[)]/g" = true := by
    decide +kernel
  obtain ⟨s, hs, hstack, -⟩ := scan_of_accepts
    (Parser.lexical_only (by decide +kernel) (by decide +kernel)) haccepts (by decide +kernel)
    (by decide +kernel) (by decide +kernel)
  exact ⟨haccepts, s, hs, hstack⟩

def itemQuotient : Syntax :=
  .wrapped "b[0] / 2" [.node { kind := "binary_expression", text := "b[0] / 2", start := 1 }
    [.node { kind := "subscript_expression", text := "b[0]", start := 1 }
        [.leaf "identifier" "b" 1, .mark "[" 2, .leaf "number" "0" 3, .mark "]" 4],
      .mark "/" 6, .leaf "number" "2" 8]]

/-- The slash after a closing bracket is taken for the start of a regular expression, though it
divides: the text is one expression, but a regular expression is open at its end. -/
theorem unfinished_division_after_bracket :
    ∃ parse : Parser, parse.Lexical ∧ parse.validator.accepts "b[0] / 2" = true ∧
    parse.isPlain "b[0] / 2" = true ∧ (∀ p ∈ parse.pieces "b[0] / 2", p.isComment = false) ∧
    (Nesting.scan "b[0] / 2".toList).toOption.map (·.stack) = some [.regex] ∧
    Nesting.scanUntilChar ')' "b[0] / 2)".toList = .error (.unfinished "b[0] / 2)".toList) :=
  ⟨.only (wrap "b[0] / 2") itemQuotient,
    Parser.lexical_only (by decide +kernel) (by decide +kernel), by decide +kernel⟩

end Script
end PugTemplate
