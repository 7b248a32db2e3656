import PugTemplate.Proofs.Token.Places
/-!
# Progress at words

The rules for the end of the template, for words that stand alone and for words with an expression
behind them.
-/

namespace PugTemplate

open List Pattern Option
namespace Setting

variable {env : Setting} {depth : Nat} {s next : Lexer} {rest cs whole value : List Char}
  {word : String} {p : Position} {isPart : Char → Bool}

/-! ## Ends -/

theorem yields_blank (s : Lexer) : env.Progress depth s s.blank := by
  unfold Lexer.blank
  split
  · rename_i cs hr
    split
    · rename_i rest hg
      have hd : Walks s { s.advanceLine 1 with rest := cs } := by
        refine .down (hr ▸ suffix_cons _ _) (Nat.le_add_right _ _) ?_
          (fun _ => Nat.le_refl _) ⟨rfl, rfl, rfl⟩
        show s.line + 1 + cs.count '\n' + 0 = s.line + s.rest.count '\n'
        rw [hr, count_cons_self]
        omega
      have hs : SameLine ('\n' :: rest) cs := hg ▸ .dropWhile rfl cs
      refine .ok (.read (Walks.goes (hd.trans (.along hs rfl (Nat.le_refl _)
        ⟨rfl, rfl, rfl⟩)) fun _ => by simp [AtLineEnd]) ?_)
      exact Nat.lt_of_le_of_lt hs.suffix.length_le (by rw [hr]; exact Nat.lt_succ_self _)
    · exact .ok .refl
  · exact .ok .refl

theorem counts_outdents (indents : List Nat) {t : Lexer} (h : Counts s t) :
    Counts s (indents.foldl (fun s _ => s.push .outdent) t) := by
  induction indents generalizing t with
  | nil => exact h
  | cons width indents ih => exact ih h.push

theorem yields_eos (s : Lexer) :
    Yields (env.eos s) (fun out => Advances s out ∧ (env.interpolated → out.2 = s))
      (env.Blames s.Placed) := by
  unfold eos
  split
  · exact .ok ⟨.unread .refl rfl, fun _ => rfl⟩
  · split
    · exact .error (.here nofun)
    · rename_i hi
      have hc : Counts s ((s.indents.foldl (fun s _ => s.push .outdent) s).push .eos) :=
        (counts_outdents s.indents .refl).push
      refine .ok ⟨.finish (hc.trans (.onLine (.refl _) rfl fun _ hs => ?_)) rfl,
        fun h => absurd h hi⟩
      exact ⟨hs.position, hs.tokens⟩

theorem yields_endInterpolation (s : Lexer) : env.Progress depth s (env.endInterpolation s) := by
  unfold endInterpolation
  split
  · rename_i rest hr
    refine .ok ?_
    split
    · rename_i hi
      have hl : ¬AtLineEnd s.rest := by simp [AtLineEnd, hr]
      refine .finish ⟨.onLine (hr ▸ .cons (by decide) rest) rfl fun _ hs => ?_, ?_⟩ rfl
      · exact ⟨hs.position, hs.tokens⟩
      · exact ⟨⟨rfl, .inr hi, ⟨[], .nil, rfl⟩⟩, fun hs =>
          Undotted.dotted (hs.undotted hl)⟩
    · exact .refl
  · exact .ok .refl

theorem yields_reject {c : Bool} {cause : Cause} {s : Lexer} (hc : cause.category ≠ .endOfStream) :
    env.Progress depth s (if c then .error (env.diagnostic cause s) else .ok (false, s) : Step) := by
  split
  · exact .error (.here hc)
  · exact .ok .refl

/-! ## Words that stand alone -/

theorem ne_nil_of_afterWord? (hw : word ≠ "") (h : afterWord? word cs = some rest) : cs ≠ [] := by
  rw [afterWord?_cut h]
  intro hn
  exact hw (String.toList_eq_nil_iff.mp (append_eq_nil_iff.mp hn).1)

theorem takeToLineEnd_cut (h : s.takeToLineEnd whole = some (p, next)) :
    Pattern.SameLine next.rest (s.rest.drop whole.length) := by
  obtain ⟨rest, hr, h⟩ := map_eq_some_iff.mp h
  cases h
  exact endOfLine?_sameLine hr

theorem atLineEnd_endOfLine? (h : endOfLine? cs = some rest) : AtLineEnd rest := by
  unfold endOfLine? at h
  split at h
  · cases h
    simp [AtLineEnd]
  · split at h
    · cases h
      simp [AtLineEnd]
    · cases h
      simp [AtLineEnd]
    · cases h

theorem walks_takeToLineEnd (hw : Pattern.SameLine (s.rest.drop whole.length) s.rest)
    (h : s.takeToLineEnd whole = some (p, next)) :
    Walks s next ∧ s.Faces p ∧ AtLineEnd next.rest := by
  have hs := (takeToLineEnd_cut h).trans hw
  obtain ⟨rest, hr, h⟩ := map_eq_some_iff.mp h
  cases h
  refine ⟨.along hs rfl ?_ ⟨rfl, rfl, rfl⟩, ⟨rfl, Nat.le_add_right _ _⟩, atLineEnd_endOfLine? hr⟩
  exact Nat.le_trans (Nat.le_add_right _ _) (Nat.le_add_right _ _)

theorem passes_loneWord {word : String} (hw : word ≠ "" ∧ '\n' ∉ word.toList) {kind : TokenKind}
    (hk : kind.isPlain ∧ kind.isContent = false)
    (hpl : kind.enclosed? = none ∧ kind.spliced? = none) (s : Lexer) :
    Passes env depth s (loneWord word kind s) ∧
      ((loneWord word kind s).1 → (loneWord word kind s).2.rest.length < s.rest.length) := by
  unfold loneWord
  split
  · exact ⟨.refl, nofun⟩
  · rename_i after ha
    split
    · rename_i p next hn
      have hh : word.toList <+: s.rest := ⟨after, (afterWord?_cut ha).symm⟩
      obtain ⟨hwa, hp, hl⟩ := walks_takeToLineEnd (.drop hh hw.2) hn
      have hne := ne_nil_of_afterWord? hw.1 ha
      have hpo : 0 < word.toList.length :=
        length_pos_iff.mpr fun h => hw.1 (String.toList_eq_nil_iff.mp h)
      have hs := Nat.lt_of_le_of_lt (takeToLineEnd_cut hn).suffix.length_le (length_drop_lt hne hpo)
      exact ⟨.read ⟨hwa.pushFaced hp, .pushLast hwa.toShifts hk hpl hl⟩ hs, fun _ => hs⟩
    · exact ⟨.refl, nofun⟩

theorem yields_doctype (s : Lexer) : env.Progress depth s (doctype s) := by
  unfold doctype
  split
  · exact .ok .refl
  · rename_i rest hr
    have hc := afterWord?_cut hr
    have hp : 0 < (line s.rest).length := by
      rw [hc]
      exact Nat.succ_pos _
    exact .ok (.token _ (.drop_line _) hp (by simp [hc]) (.self s) rfl (.of_none ⟨rfl, rfl⟩))

theorem yields_defaultCase (s : Lexer) : env.Progress depth s (env.defaultCase s) := by
  have hw : Passes env depth s (loneWord "default" .default s) :=
    (passes_loneWord (by decide) ⟨rfl, rfl⟩ ⟨rfl, rfl⟩ s).1
  unfold defaultCase
  split
  · rename_i h
    exact .ok (h ▸ hw)
  · rename_i t h
    rw [h] at hw
    refine Yields.mono (@yields_reject env depth _ _ t nofun) (fun _ h => ?_)
      fun _ h => h.mono hw.placed
    exact ⟨hw.toAdvances.after h.toAdvances, hw.toMoves.trans h.toMoves⟩

/-! ## Words with an expression -/

theorem walks_wordValue? (hw : '\n' ∉ word.toList) (hp : isPart '\n' = false)
    (h : wordValue? word isPart s = some (value, next)) :
    Walks s next ∧ next.rest.length < s.rest.length ∧ '\n' ∉ value := by
  obtain ⟨hne, spaces, hr, hb, hn⟩ := wordValue?_cut h
  have hl := congrArg length hr
  have hv := length_pos_iff.mpr hne
  simp only [length_append] at hl
  have hli : '\n' ∉ word.toList ++ spaces ++ value := by
    rw [append_assoc, mem_append]
    exact not_or.mpr ⟨hw, hb hp⟩
  refine ⟨.along ⟨_, hli, hr⟩ ?_ ?_ ⟨?_, ?_, ?_⟩, by omega, fun h => hli (mem_append_right _ h)⟩
  · rw [hn]
  · rw [hn]
    exact Nat.le_add_right _ _
  all_goals rw [hn]

theorem faces_valueStart (hl : next.line = s.line)
    (hc : s.column + value.length ≤ next.column) : s.Faces (valueStart next value) :=
  ⟨hl, Nat.le_sub_of_add_le hc⟩

theorem yields_wordValue (hwo : '\n' ∉ word.toList) (hp : isPart '\n' = false)
    (h : wordValue? word isPart s = some (value, next)) {kind : TokenKind}
    (hk : kind.isWord)
    (hv : kind.enclosed? = none ∧ kind.spliced? = some (String.ofList value)) :
    env.Progress depth s (do
      env.requireExpression value (valueStart next value)
      pure (true, next.pushAt kind s.position) : Step) := by
  obtain ⟨hw, hs, hb⟩ := walks_wordValue? hwo hp h
  obtain ⟨-, spaces, hr, -, hn⟩ := wordValue?_cut h
  have hst : s.Faces (valueStart next value) := by
    refine faces_valueStart (by rw [hn]) ?_
    rw [hn]
    dsimp only
    omega
  have hi : value <:+: s.rest := ⟨_, _, hr.symm⟩
  exact .bind (yields_requireExpression_part hst hi) fun _ ha =>
    .ok (.read (hw.push (.self s) hk (.of_line hv ha hb)) hs)

theorem yields_case (s : Lexer) : env.Progress depth s (env.case s) := by
  unfold case
  split
  · rename_i h
    exact yields_wordValue (by decide) rfl h rfl ⟨rfl, rfl⟩
  · exact yields_reject nofun

theorem yields_whileLoop (s : Lexer) : env.Progress depth s (env.whileLoop s) := by
  unfold whileLoop
  split
  · rename_i h
    exact yields_wordValue (by decide) rfl h rfl ⟨rfl, rfl⟩
  · exact yields_reject nofun

/-- A value grows by what is read. -/
structure Extends (value : List Char) (s : Lexer) (out : List Char × Lexer) : Prop extends
    Shifts s out.2 where
  rest : Pattern.SameLine out.2.rest s.rest
  text : value ++ s.rest = out.1 ++ out.2.rest
  line : out.2.line = s.line
  column : out.2.column + value.length = s.column + out.1.length
  breaks : '\n' ∉ value → '\n' ∉ out.1

namespace Extends

variable {value : List Char} {s : Lexer} {out : List Char × Lexer}

theorem refl : Extends value s (value, s) := ⟨.refl, .refl _, rfl, rfl, rfl, id⟩

theorem trans {mid : List Char × Lexer} (h : Extends value s mid) (h' : Extends mid.1 mid.2 out) :
    Extends value s out where
  toShifts := h.toShifts.trans h'.toShifts
  rest := h'.rest.trans h.rest
  text := h.text.trans h'.text
  line := h'.line.trans h.line
  column := by
    have hm := h.column
    have ho := h'.column
    omega
  breaks hv := h'.breaks (h.breaks hv)

theorem walks (h : Extends value s out) : Walks s out.2 := by
  have hr := h.rest.suffix.length_le
  have ht := congrArg length h.text
  have hc := h.column
  simp only [length_append] at ht
  exact .along h.rest h.line (by omega) h.toShifts

theorem part {part after : List Char} (hr : s.rest = ':' :: (part ++ after)) (hb : '\n' ∉ part) :
    Extends value s (value ++ ':' :: part,
      (s.consume (part.length + 1)).advanceColumn (part.length + 1)) := by
  have hd : s.rest.drop (part.length + 1) = after := by
    rw [hr, drop_succ_cons, drop_left]
  refine ⟨⟨rfl, rfl, rfl⟩, sameLine_marked (by decide) hr ⟨after, rfl⟩ hb, ?_, rfl, ?_,
    fun hv => ?_⟩
  · rw [hr, ← cons_append, ← append_assoc]
    exact congrArg _ hd.symm
  · simp only [Lexer.consume, Lexer.advanceColumn, length_append, length_cons]
    omega
  · simp [hv, hb]

end Extends

theorem yields_continueWhen (n : Nat) (value : List Char) (s : Lexer) :
    Yields (env.continueWhen n value s) (Extends value s) (env.Blames s.Placed) := by
  induction n generalizing value s with
  | zero => exact .ok .refl
  | succ n ih =>
    unfold continueWhen
    split
    · exact .error (blames_scanDiagnostic _ .refl)
    · split
      · exact .ok .refl
      · split
        · rename_i cs hr
          dsimp only
          split
          · exact .ok .refl
          · have hp : Extends value s _ := .part
              (hr.trans (congrArg _ (takeWhile_append_dropWhile (p := isWhenPart)).symm))
              (not_mem_takeWhile rfl cs)
            exact (ih _ _).mono (fun _ h => hp.trans h) fun _ h => h.mono hp.walks.placed
        · exact .ok .refl

theorem yields_when (s : Lexer) : env.Progress depth s (env.when s) := by
  unfold «when»
  split
  · rename_i value next h
    obtain ⟨hw, hs, hb⟩ := walks_wordValue? (by decide) rfl h
    obtain ⟨-, spaces, hr, -, hn⟩ := wordValue?_cut h
    have hl : next.line = s.line := by rw [hn]
    have hc : s.column + value.length ≤ next.column := by
      rw [hn]
      dsimp only
      omega
    refine .bind ((yields_continueWhen _ value next).fitting hw.placed) fun ⟨value', next'⟩ h' => ?_
    -- The value may have grown, but it still ends where the lexer is.
    have hst : s.Faces (valueStart next' value') := by
      refine faces_valueStart (h'.line.trans hl) ?_
      have hg : next'.column + value.length = next.column + value'.length := h'.column
      omega
    have hi : value' <:+: s.rest := by
      refine ⟨"when".toList ++ spaces, next'.rest, ?_⟩
      rw [append_assoc, ← h'.text, ← append_assoc]
      exact hr.symm
    refine .bind (yields_requireExpression_part hst hi) fun _ ha => .ok ?_
    exact .read ((hw.trans h'.walks).push (.self s) rfl (.of_line ⟨rfl, rfl⟩ ha (h'.breaks hb)))
      (Nat.lt_of_le_of_lt h'.rest.suffix.length_le hs)
  · exact yields_reject nofun

theorem length_line_conditional
    (h : conditionWords.find? (fun word => atKeyword word cs) = some word) :
    cs ≠ [] ∧ 0 < (line cs).length := by
  have hk := find?_some h
  obtain ⟨after, rfl⟩ := atKeyword_cut hk
  have hw := mem_of_find?_eq_some h
  simp only [conditionWords, mem_cons, not_mem_nil, or_false] at hw
  rcases hw with rfl | rfl | rfl | rfl
  all_goals exact ⟨cons_ne_nil _ _, Nat.succ_pos _⟩

theorem yields_conditional (s : Lexer) : env.Progress depth s (env.conditional s) := by
  unfold conditional
  split
  · exact .ok .refl
  · rename_i word hw
    obtain ⟨hn, hpo⟩ := length_line_conditional hw
    have hp {kind : TokenKind} (hk : kind.isWord) (hv : kind.Vouched env.validator) :
        Passes env depth s (true, ((s.consume (line s.rest).length).advanceColumn
          (line s.rest).length).pushAt kind s.position) :=
      .token _ (.drop_line _) hpo hn (.self s) hk hv
    have hb : '\n' ∉ Text.trim ((line s.rest).drop word.length) :=
      not_mem_trim fun hm => not_mem_line s.rest (mem_of_mem_drop hm)
    have hs : Text.trim ((line s.rest).drop word.length) <:+: s.rest :=
      ((trim_isPart _).trans (drop_suffix _ _).isInfix).trans ( takeWhile_prefix _).isInfix
    have hex := fun column => @yields_requireExpression_part env s
      ⟨s.line, s.column + word.length + column⟩ _ ⟨rfl, by dsimp only; omega⟩ hs
    dsimp only
    split
    · exact .bind (hex _) fun _ ha =>
        .ok (hp rfl (.of_line ⟨rfl, rfl⟩ ha hb))
    · refine .bind (hex _) fun _ ha =>
        .ok (hp rfl (.of_spliced ⟨rfl, rfl⟩ ha (.negated ?_)))
      rwa [String.toList_ofList]
    · exact .bind (hex _) fun _ ha =>
        .ok (hp rfl (.of_line ⟨rfl, rfl⟩ ha hb))
    · split
      · exact .ok (hp rfl (.of_none ⟨rfl, rfl⟩))
      · exact .error (.here nofun)

theorem yields_each (s : Lexer) : env.Progress depth s (env.each s) := by
  unfold each
  split
  · rename_i head hh
    obtain ⟨hli, word, hw, after, hc⟩ := loopHead?_cut hh
    have hl : s.rest ≠ [] ∧ 0 < (line s.rest).length := by
      rw [hc]
      simp only [mem_cons, not_mem_nil, or_false] at hw
      rcases hw with rfl | rfl
      all_goals exact ⟨cons_ne_nil _ _, Nat.succ_pos _⟩
    refine .bind (yields_requireExpression_part ⟨rfl, Nat.le_add_right _ _⟩ ?_) fun _ _ => ?_
    · exact hli.isInfix.trans ( takeWhile_prefix _).isInfix
    · exact .ok (.token _ (.drop_line _) hl.2 hl.1 (.self s) rfl (.of_none ⟨rfl, rfl⟩))
  · split
    · exact .error (.here nofun)
    · exact yields_reject nofun

/-! ## Other files and named blocks -/

theorem yields_path (depth : Nat) (s : Lexer) :
    Yields (path s) (fun out => Goes env depth s out.2) (env.Blames s.Placed) := by
  unfold path
  split
  · rename_i cs hr
    dsimp only
    split
    · exact .ok .refl
    · split
      · exact .ok .refl
      · rename_i p next hn
        have hwh : SameLine (s.rest.drop (' ' :: line cs).length) s.rest :=
          sameLine_marked (by decide) hr ( takeWhile_prefix _) (not_mem_line cs)
        obtain ⟨hw, hp, hl⟩ := walks_takeToLineEnd hwh hn
        split
        · exact .ok (hw.goes fun _ => hl)
        · exact .ok (hw.push hp rfl (.of_none ⟨rfl, rfl⟩))
  · exact .ok .refl

theorem yields_extendsPath (hh : env.hooks = []) (s : Lexer) :
    env.Progress depth s (env.extendsPath s) := by
  unfold extendsPath
  dsimp only
  have hw : (if (afterWord? "extends" s.rest).isSome then "extends" else "extend") ∈
      ["extends", "extend"] := by
    split <;> decide
  generalize (if (afterWord? "extends" s.rest).isSome then "extends" else "extend") = word
    at hw
  obtain ⟨hn, hb⟩ : word ≠ "" ∧ '\n' ∉ word.toList := by
    revert word
    decide
  split
  · exact .ok .refl
  · rename_i rest hr
    have hp : 0 < word.length := Nat.pos_of_ne_zero fun h => hn (String.length_eq_zero_iff.mp h)
    have hsa : SameLine (s.rest.drop word.length) s.rest := by
      exact .drop ⟨rest, (afterWord?_cut hr).symm⟩ hb
    split
    · rw [call_eq hh]
      have hg : Goes env depth s (((s.consume word.length).advanceColumn word.length).pushAt
          .extends s.position) := Walks.push (.consume hsa _) (.self s) rfl (.of_none ⟨rfl, rfl⟩)
      have hs := length_drop_lt (ne_nil_of_afterWord? hn hr) hp
      refine .bind ((yields_path depth _).fitting hg.placed) fun ⟨matched, next⟩ h => ?_
      cases matched with
      | true => exact .ok (.trans hg hs h)
      | false => exact .error (.ahead nofun (hg.trans h).toCounts)
    · exact yields_reject nofun

theorem yields_namedBlock {content : List Char → Option (List Char)}
    (hc : ∀ {cs after}, content cs = some after → Pattern.SameLine after cs)
    (mode : BlockMode) (s : Lexer) : env.Progress depth s (namedBlock content mode s) := by
  unfold namedBlock
  split
  · exact .ok .refl
  · rename_i after ha
    dsimp only
    split
    · exact .ok .refl
    · rename_i hn
      have hv : beforeComment (line after) ≠ [] := by
        intro hni
        rw [hni] at hn
        exact hn rfl
      have hne : s.rest ≠ [] := by
        intro hni
        obtain rfl := suffix_nil.mp (hni ▸ (hc ha).suffix)
        exact hv rfl
      refine .ok (.token _ ?_ ?_ hne (.self s) rfl (.of_none ⟨rfl, rfl⟩))
      · have hh := beforeComment_prefix (line after)
        have hb : '\n' ∉ beforeComment (line after) := fun hb =>
          not_mem_line after (hh.subset hb)
        have hd := SameLine.drop (hh.trans ( takeWhile_prefix _)) hb
        rw [← drop_drop, ← suffix_iff_eq_drop.mp (hc ha).suffix]
        exact hd.trans (hc ha)
      · have hl := length_pos_iff.mpr hv
        omega

end Setting
end PugTemplate
