import PugTemplate.Proofs.Script.Endings
/-!
# Expressions before more code

An expression is written in front of more code as it stands on its line, or between parentheses after
a negation, or without the blanks around it. Whether a comment is open where the other code starts is
told by the last piece of the expression alone, as far as its pieces are taken for what they are.
-/

namespace PugTemplate

open List Text Bool Nesting
namespace Nesting

open Script (Piece Passage isCode piece? endsInLineComment)

/-! ## Text before a script -/

/-- Text, the last character of which comes first, before a script whose slashes are taken for the same
things as without it. -/
structure Ground (before : List Char) : Prop where
  first : ∀ c ∈ before.head?, isKeywordPart c = false ∧ c ≠ '/'
  startsRegex : Nesting.startsRegex before = true

theorem Ground.takeWhile_eq {before : List Char} (h : Ground before) :
    before.takeWhile isKeywordPart = [] := by
  cases before with
  | nil => rfl
  | cons c cs => exact takeWhile_cons_of_neg (by simp [(h.first c rfl).1])

theorem Ground.startsRegex_append {before : List Char} (h : Ground before) (history : List Char) :
    Nesting.startsRegex (history ++ before) = Nesting.startsRegex history := by
  cases hr : history.dropWhile isBlank with
  | nil =>
    -- the script has blanks only so far, so a slash starts a regular expression
    have hd : (history ++ before).dropWhile isBlank = before.dropWhile isBlank := by
      rw [dropWhile_append, hr]
      rfl
    have hs : Nesting.startsRegex history := by
      unfold Nesting.startsRegex
      rw [hr]
      rfl
    rw [hs, ← h.startsRegex]
    unfold Nesting.startsRegex
    rw [hd]
  | cons c cs =>
    have hd : (history ++ before).dropWhile isBlank = c :: (cs ++ before) := by
      rw [dropWhile_append, hr]
      rfl
    have hw : (c :: (cs ++ before)).takeWhile isKeywordPart =
        (c :: cs).takeWhile isKeywordPart := by
      rw [← cons_append, takeWhile_append, h.takeWhile_eq, append_nil]
      split
      · next ha => exact (( takeWhile_prefix _).eq_of_length ha).symm
      · rfl
    unfold Nesting.startsRegex
    rw [hd, hr]
    simp only [hw]
    rfl

theorem isKeywordPart_of_isBlank {c : Char} (h : isBlank c) : isKeywordPart c = false := by
  have hb : c.toNat ≤ 32 ∨ 128 ≤ c.toNat := by
    simp only [isBlank, or_eq_true, and_eq_true, decide_eq_true_eq, beq_iff_eq] at h
    omega
  rw [← not_eq_true]
  intro hp
  have ha : 48 ≤ c.toNat ∧ c.toNat ≤ 122 := by
    change ((decide (65 ≤ c.toNat ∧ c.toNat ≤ 90) ||
        (decide (97 ≤ c.toNat) && decide (c.toNat ≤ 122))) ||
      (decide (48 ≤ c.toNat) && decide (c.toNat ≤ 57)) || c == '_') = true at hp
    simp only [or_eq_true, and_eq_true, decide_eq_true_eq, beq_iff_eq] at hp
    rcases hp with ((hu | hl) | hd) | rfl
    · omega
    · omega
    · omega
    · decide
  omega

theorem ground_of_isBlank {blanks : List Char} (h : ∀ b ∈ blanks, isBlank b) :
    Ground blanks := by
  constructor
  · intro c hc
    have hb := h c (mem_of_mem_head? hc)
    refine ⟨isKeywordPart_of_isBlank hb, ?_⟩
    rintro rfl
    cases hb
  · unfold startsRegex
    rw [dropWhile_eq_nil_iff.mpr h]
    rfl

namespace Trail

/-- The trail on top of text before the script. -/
def onTop (t : Trail) (before : List Char) : Trail := { t with history := t.history ++ before }

theorem after_onTop (t : Trail) (before : List Char) (p : Piece) :
    (t.onTop before).after p = (t.after p).onTop before := by
  cases p <;> simp [after, onTop, note]

theorem follows_onTop {before : List Char} (h : Ground before) (t : Trail) (p : Piece) :
    (t.onTop before).follows p = t.follows p := by
  have hs : (t.onTop before).afterSlash = t.afterSlash := by
    unfold afterSlash onTop
    cases hh : t.history with
    | cons c cs => rfl
    | nil =>
      cases hb : before with
      | nil => rfl
      | cons c cs =>
        have hc := (h.first c (by rw [hb]; rfl)).2
        simp [hc]
  have hr : startsRegex (t.onTop before).history = startsRegex t.history :=
    h.startsRegex_append t.history
  have hd : (t.onTop before).dollar = t.dollar := rfl
  cases p <;> simp only [follows, hs, hr, hd]

theorem followsAll_onTop {before : List Char} (h : Ground before) (t : Trail) (ps : List Piece) :
    (t.onTop before).followsAll ps = t.followsAll ps := by
  induction ps generalizing t with
  | nil => rfl
  | cons p ps ih => rw [followsAll, followsAll, follows_onTop h, after_onTop, ih]

end Trail

end Nesting

namespace Script

open Nesting (Context Trail State Ground)

/-! ## Blanks before a text -/

variable {levels : List Context} {blanks cs u : List Char} {ps : List Piece}

theorem Passage.after_blanks {after : List Context} {rest : List Char}
    (h : Passage levels (blanks ++ cs) ps after rest) (hc : isCode levels)
    (hbl : ∀ b ∈ blanks, isBlank b) (hr : rest.length ≤ cs.length) :
    ∃ qs, ps = blanks.map .mark ++ qs ∧ Passage levels cs qs after rest := by
  induction blanks generalizing ps with
  | nil => exact ⟨ps, rfl, h⟩
  | cons b blanks ih =>
    obtain ⟨hb, hbl⟩ := forall_mem_cons.mp hbl
    rw [cons_append] at h
    cases h with
    | refl =>
      rw [length_cons, length_append] at hr
      omega
    | step hf hm =>
      rw [piece?_code hc, codePiece?_of_isPlainChar (isPlainChar_of_isBlank hb)] at hf
      cases hf
      obtain ⟨qs, rfl, hq⟩ := ih hm hbl
      exact ⟨qs, rfl, hq⟩

theorem endsInLineComment_after_blanks (hbl : ∀ b ∈ blanks, isBlank b)
    (ps : List Piece) : endsInLineComment (blanks.map .mark ++ ps) = endsInLineComment ps := by
  unfold endsInLineComment
  rw [reverse_append, dropWhile_append]
  split
  · next hem =>
    have hm : (blanks.map Piece.mark).reverse.dropWhile Piece.isBlankMark = [] := by
      rw [dropWhile_eq_nil_iff]
      intro p hp
      obtain ⟨b, hb, rfl⟩ := mem_map.mp (mem_reverse.mp hp)
      exact hbl b hb
    rw [isEmpty_iff.mp hem, hm]
  · next hn =>
    rw [head?_append_of_ne_nil]
    simpa using hn

theorem afterAll_blanks (blanks : List Char) (t : Trail) :
    t.afterAll (blanks.map .mark) = { t with history := blanks.reverse ++ t.history } := by
  induction blanks generalizing t with
  | nil => rfl
  | cons b blanks ih =>
    show (t.after (.mark b)).afterAll (blanks.map .mark) = _
    rw [ih, reverse_cons, append_assoc]
    rfl

/-! ## Splices -/

/-- How a text comes from an expression: as it stands on its line, between parentheses after a
negation, or without the blanks around it. -/
inductive Splices (e : String) : String → Prop where
  | line (h : '\n' ∉ e.toList) : Splices e e
  | negated (h : '\n' ∉ e.toList) : Splices e ("!(" ++ e ++ ")")
  | trimmed : Splices e (Text.trimString e)

theorem isComment_of_leads {s : State} (ends : Bool) (hl : ∀ level ∈ levels, level.isEnclosing)
    (h : ∃ t, s.Leads cs (if ends then .lineComment :: levels else levels) false t) :
    ∃ next, s.pushAll cs = some next ∧ next.isComment = ends := by
  obtain ⟨t, next, hn, hs⟩ := h
  refine ⟨next, hn, ?_⟩
  cases ends with
  | false => exact State.isComment_of_enclosing hs.stack hl
  | true =>
    unfold State.isComment State.current
    rw [hs.stack]
    rfl

theorem shows_start : ({} : State).Shows [] false {} := ⟨rfl, rfl, rfl, rfl, rfl⟩

/-- After a negation and a parenthesis, slashes are taken for the same things as at the start. -/
theorem ground_negation : Ground ['(', '!'] := by
  refine ⟨?_, by decide⟩
  intro c hc
  cases hc
  decide

theorem isComment_of_negated (h : Passage [] (u ++ ['\n', ')']) ps [] [')']) (hli : '\n' ∉ u)
    (hf : ({} : Trail).followsAll ps) :
    ∃ s, (({} : State).pushAll ['!', '(']).bind (·.pushAll (u ++ [')'])) = some s ∧
      s.isComment = endsInLineComment ps := by
  obtain ⟨start, hs, hsh⟩ : ∃ start, ({} : State).pushAll ['!', '('] = some start ∧
      start.Shows [.bracket ')'] false (({} : Trail).onTop ['(', '!']) :=
    ⟨_, rfl, rfl, rfl, rfl, rfl, rfl⟩
  have hfr : Passage [.bracket ')'] (u ++ ['\n', ')']) ps [.bracket ')'] [')'] :=
    h.frame (by rfl)
  have hl : ∀ level ∈ [Context.bracket ')'], level.isEnclosing := by simp; rfl
  rw [← Trail.followsAll_onTop ground_negation] at hf
  obtain ⟨t, next, hn, hla⟩ :=
    (State.leads_snippet hfr rfl hl hsh hf).2 (.inl hli)
  rw [hs, Option.bind_some, State.pushAll_append, hn]
  cases hen : endsInLineComment ps with
  | false =>
    -- the parenthesis is closed again
    rw [hen] at hla
    have hc := State.leads_mark (c := ')') hla rfl hl rfl (by decide) rfl
    exact isComment_of_leads false (by simp) ⟨_, hc⟩
  | true =>
    -- the parenthesis is part of the comment
    rw [hen] at hla
    exact isComment_of_leads true hl ⟨_, State.leads_lineChar hla ')'⟩

theorem isComment_of_trimmed (h : Passage [] (u ++ ['\n', ')']) ps [] [')'])
    (hf : ({} : Trail).followsAll ps) :
    ∃ s, ({} : State).pushAll (trim u) = some s ∧ s.isComment = endsInLineComment ps := by
  have hbl : ∀ b ∈ u.takeWhile isBlank, isBlank b :=
    fun b hb => mem_takeWhile_imp hb
  have ht : u ++ ['\n', ')'] = u.takeWhile isBlank ++ (trimStart u ++ ['\n', ')']) := by
    rw [← append_assoc, trimStart, takeWhile_append_dropWhile]
  rw [ht] at h
  obtain ⟨qs, rfl, hq⟩ := h.after_blanks rfl hbl (by simp)
  rw [Trail.followsAll_append, afterAll_blanks, and_eq_true] at hf
  have hs : ({} : Trail).followsAll qs := by
    have hg : Ground (u.takeWhile isBlank).reverse :=
      ground_of_isBlank (by simpa using hbl)
    rw [← hf.2, ← Trail.followsAll_onTop hg, append_nil]
    rfl
  rw [endsInLineComment_after_blanks hbl]
  exact isComment_of_leads _ (by simp) (State.leads_snippet hq rfl (by simp) shows_start hs).1

/-- **A comment is open at the end of a spliced text** exactly if the last piece of its expression is a
line comment, as long as each piece of the expression is taken for what it is. -/
theorem scan_of_splices {parse : Parser} {e t : String} (hlexical : parse.Lexical)
    (h : Splices e t) (haccepts : parse.validator.accepts e) (hplain : parse.isPlain e)
    (hf : ({} : Trail).followsAll (parse.pieces e)) :
    ∃ s, scan t.toList = .ok s ∧ s.isComment = endsInLineComment (parse.pieces e) := by
  have hp := Parser.passage_of_accepts hlexical haccepts hplain
  suffices hpu : ∃ s, ({} : State).pushAll t.toList = some s ∧
      s.isComment = endsInLineComment (parse.pieces e) by
    obtain ⟨s, hs, hc⟩ := hpu
    exact ⟨s, State.scanFrom_eq_ok_iff.mpr hs, hc⟩
  cases h with
  | line hl =>
    exact isComment_of_leads _ (by simp)
      ((State.leads_snippet hp rfl (by simp) shows_start hf).2 (.inl hl))
  | negated hl =>
    have ht : ("!(" ++ e ++ ")").toList = ['!', '('] ++ (e.toList ++ [')']) := by simp
    rw [ht]
    exact isComment_of_negated hp hl hf
  | trimmed =>
    rw [trimString, String.toList_ofList]
    exact isComment_of_trimmed hp hf

end Script
end PugTemplate
