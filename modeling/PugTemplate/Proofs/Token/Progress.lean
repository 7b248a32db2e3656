import PugTemplate.Proofs.Token.Progress.Text
/-!
# Progress of the lexer

Every rule that reads something makes the text shorter, or ends the lexer. No rule leaves the
template, and no diagnostic is outside of it. Every rule counts as many lines as it drops line breaks,
with one exception: the line breaks between the plus sign and the name of a mixin that is called are
dropped, but not counted.
-/

namespace PugTemplate

open List Pattern Text Setting Lexer

/-! ## Mixins -/

/-- The line breaks between the plus sign of a call and a name. -/
def Lexer.callBreaks (s : Lexer) : Nat :=
  match s.rest with
  | '+' :: cs =>
    if (Pattern.name? (cs.dropWhile Text.isBlank)).isSome then
      (cs.takeWhile Text.isBlank).count '\n'
    else 0
  | _ => 0

theorem Lexer.callBreaks_congr {s t : Lexer} (h : t.rest = s.rest) :
    t.callBreaks = s.callBreaks := by
  unfold callBreaks
  rw [h]

namespace Setting

variable {env : Setting} {depth : Nat} {s : Lexer} {cs : List Char} {rule : Rule × (Lexer → Step)}

theorem yields_mixin (s : Lexer) : env.Progress depth s (mixin s) := by
  unfold mixin
  split
  · exact .ok .refl
  · rename_i head hh
    obtain ⟨hp, front, after, hb, hc, hl⟩ := mixinHead?_cut hh
    have hn : s.rest ≠ [] := by
      rw [hc]
      refine append_ne_nil_of_left_ne_nil (ne_nil_of_length_pos ?_) _
      exact hl ▸ hp
    exact .ok (.token _ (hl ▸ .drop ⟨after, hc.symm⟩ hb) hp hn (.self s) rfl (.of_none ⟨rfl, rfl⟩))

/-- Of what is read before the arguments of a call, only the blanks before a name have line breaks
that are not counted. -/
theorem yields_callName (s : Lexer) : Yields (env.callName s)
    (fun r => ∀ name next, r = some (name, next) →
      Walks s next s.callBreaks ∧ next.rest.length < s.rest.length) (env.Blames s.Placed) := by
  unfold callName
  split
  · rename_i cs hr
    have hne : s.rest ≠ [] := by simp [hr]
    dsimp only
    split
    · rename_i name hn
      refine .ok fun _ _ h => ?_
      cases h
      refine ⟨?_, length_drop_lt hne (by omega)⟩
      have hc : s.callBreaks = (cs.takeWhile isBlank).count '\n' := by
        simp [callBreaks, hr, hn]
      obtain ⟨-, ⟨after, ha⟩, hb⟩ := name?_cut hn
      have hcu : s.rest = '+' :: cs.takeWhile isBlank ++ name ++ after := by
        rw [hr, append_assoc, ha, cons_append, takeWhile_append_dropWhile]
      have hw : ('+' :: cs.takeWhile isBlank ++ name).length =
          1 + (cs.takeWhile isBlank).length + name.length := by
        simp only [length_append, length_cons]
        omega
      have hd : s.rest.drop (1 + (cs.takeWhile isBlank).length + name.length) = after := by
        rw [hcu, ← hw, drop_left]
      have hco : s.rest.count '\n' = (cs.takeWhile isBlank).count '\n' + after.count '\n' := by
        rw [hcu, count_append, count_append, count_eq_zero.mpr hb,
          count_cons_of_ne (by decide), Nat.add_zero]
      refine .down (drop_suffix _ _) (Nat.le_refl _) ?_
        (fun h => Nat.le_trans h (Nat.le_add_right _ _)) ⟨rfl, rfl, rfl⟩
      show s.line + (s.rest.drop _).count '\n' + s.callBreaks = s.line + s.rest.count '\n'
      rw [hd]
      omega
    · rename_i hn
      have hc : s.callBreaks = 0 := by
        simp [callBreaks, hr, hn]
      rw [hc]
      split
      · refine .bind (yields_bracketed _) fun source hs => ?_
        have hp := pastBracket hs
        refine .bind (yields_requireExpression_part ⟨rfl, Nat.le_add_right _ _⟩ hp.infix_rest)
          fun _ _ => .ok fun _ _ h => ?_
        cases h
        refine ⟨.over _, length_drop_lt hne ?_⟩
        have hl := hp.length
        rw [length_take]
        omega
      · exact .ok (by rintro _ _ ⟨⟩)
  · exact .ok (by rintro _ _ ⟨⟩)

theorem yields_callArguments (s : Lexer) : Yields (env.callArguments s)
    (fun r => Walks s r.2) (env.Blames s.Placed) := by
  have hst : Walks s s := ⟨.refl, .refl⟩
  unfold callArguments
  dsimp only
  split
  · refine .bind (yields_bracketed _) fun source hso => ?_
    have hp := pastBracket hso
    split
    · exact .ok hst
    · refine .bind (yields_requireExpression fun lines hs => ?_) fun _ _ => .ok ?_
      · have hc : ('[' :: source ++ [']']).count '\n' = source.count '\n' := by simp
        have hb := hp.infix_rest.sublist.count_le '\n'
        have hl : s.line + s.rest.count '\n' ≤ lines := hs.last
        have hco : 1 ≤ s.column := hs.position.column
        refine ⟨hs.position.first, ?_, ?_⟩
        all_goals
          dsimp only [consume, advanceColumn]
          omega
      · refine hp.walks ?_ rfl rfl ⟨rfl, rfl, rfl⟩
        rw [← prefix_iff_eq_take.mp ( takeWhile_prefix _)]
        exact not_mem_takeWhile rfl _
  · exact .ok hst

/-- **The call of a mixin** loses the line breaks before its name. -/
theorem yields_mixinCall (s : Lexer) : Yields (env.mixinCall s)
    (fun out => Passes env depth s out (if out.1 then s.callBreaks else 0))
    (env.Blames s.Placed) := by
  refine .bind (yields_callName s) fun r h => ?_
  split
  · exact .ok .refl
  · rename_i name next
    obtain ⟨hw, hs⟩ := h name next rfl
    refine .bind ((yields_callArguments next).fitting hw.placed) fun ⟨arguments, next'⟩ h' => .ok ?_
    refine .read ((hw.trans h').push (.self s) rfl (.of_none ⟨rfl, rfl⟩)) ?_
    exact Nat.lt_of_le_of_lt h'.rest.length_le hs

/-! ## Tags -/

theorem yields_interpolation (s : Lexer) : env.Progress depth s (env.interpolation s) := by
  unfold interpolation
  split
  · rename_i cs hr
    refine .bind (yields_bracketed 1) fun source hs => ?_
    have hp := pastBracket hs
    refine .bind (yields_requireExpression_part ⟨rfl, Nat.le_add_right _ _⟩ hp.infix_rest)
      fun _ _ => .ok ?_
    have hw : Walks s
        ((((s.consume (source.length + 3)).advanceColumn 2).skipOver source).advanceColumn 1) := by
      refine hp.walks (by simp [hr]) ?_ rfl ⟨rfl, rfl, rfl⟩
      rw [Nat.add_comm 1]
      rfl
    obtain ⟨state, hst, hsta⟩ := scan_bracketed s 1 source hs
    have hn : s.rest ≠ [] := by simp [hr]
    exact .read (Walks.push hw (.self s) rfl (.of_enclosed ⟨rfl, rfl⟩ hst hsta))
      (length_drop_lt hn (Nat.succ_pos _))
  · exact .ok .refl

theorem yields_tag (s : Lexer) : env.Progress depth s (tag s) := by
  unfold tag
  split
  · exact .ok .refl
  · rename_i name hn
    obtain ⟨hne, hp, hb⟩ := tagName?_cut hn
    have hr : s.rest ≠ [] := fun hni => hne (prefix_nil.mp (hni ▸ hp))
    exact .ok (.token _ (.drop hp hb) (length_pos_iff.mpr hne) hr (.self s) rfl (.of_none ⟨rfl, rfl⟩))

theorem yields_idName (s : Lexer) : env.Progress depth s (env.idName s) := by
  unfold idName
  split
  · rename_i cs hr
    split
    · rename_i name hn
      obtain ⟨-, hh, hb⟩ := name?_cut hn
      exact .ok (.token _ (sameLine_marked (by decide) hr hh hb) (Nat.succ_pos _)
        (by simp [hr]) (.self s) rfl (.of_none ⟨rfl, rfl⟩))
    · exact .error (.here nofun)
  · exact .ok .refl

theorem category_classCause (cs : List Char) : (classCause cs).category ≠ .endOfStream := by
  unfold classCause
  split
  · nofun
  · split <;> nofun
  · nofun

theorem yields_className (s : Lexer) : env.Progress depth s (env.className s) := by
  unfold className
  split
  · rename_i cs hr
    split
    · rename_i name hn
      obtain ⟨-, hh, hb⟩ := className?_cut hn
      exact .ok (.token _ (sameLine_marked (by decide) hr hh hb) (Nat.succ_pos _)
        (by simp [hr]) (.self s) rfl (.of_none ⟨rfl, rfl⟩))
    · exact .error (.here (category_classCause cs))
  · exact .ok .refl

theorem yields_spreadAttributes (s : Lexer) : env.Progress depth s (env.spreadAttributes s) := by
  unfold spreadAttributes
  split
  · rename_i hw
    obtain ⟨after, hc⟩ := atKeyword_cut hw
    have hn : Walks s ((s.consume 11).advanceColumn 11) :=
      .consume (.drop ⟨after, hc.symm⟩ (by decide : '\n' ∉ "&attributes".toList)) 11
    refine .bind ((yields_bracketed 0).fitting hn.placed) fun source _ => .ok ?_
    have ho := hn.trans (.over (source.length + 2))
    refine .read (Walks.push ho (.self s) rfl (.of_none ⟨rfl, rfl⟩)) ?_
    exact Nat.lt_of_le_of_lt (drop_suffix _ _).length_le (length_drop_lt (by simp [hc]) (by omega))
  · exact .ok .refl

theorem yields_dot (hh : env.hooks = []) (hn : env.Delegates depth) (s : Lexer)
    (hs : env.Fits s) : env.Progress depth s (env.dot s) := by
  obtain ⟨hw, hsh⟩ :=
    @passes_loneWord env depth "." (by decide) .dot ⟨rfl, rfl⟩ ⟨rfl, rfl⟩ s
  unfold dot
  split
  · rename_i next h
    rw [h] at hw hsh
    have ht := yields_callPipelessText hh hn next (hs.next hw.rest)
    exact .bind (ht.fitting hw.placed) fun after h' =>
      .ok (.trans hw.goes (hsh rfl) h')
  · rename_i next h
    rw [h] at hw
    exact .ok hw

theorem yields_slash (s : Lexer) : env.Progress depth s (slash s) := by
  unfold slash
  split
  · rename_i rest hr
    have hs : SameLine rest s.rest := hr ▸ .cons (by decide) rest
    have hg : Goes env depth s ({ s.advanceColumn 1 with rest }.pushAt .slash s.position) :=
      Walks.push (.along hs rfl (Nat.le_add_right _ _) ⟨rfl, rfl, rfl⟩) (.self s) rfl (.of_none ⟨rfl, rfl⟩)
    exact .ok (.read hg (hr ▸ Nat.lt_succ_self _))
  · exact .ok .refl

theorem yields_colon (s : Lexer) : env.Progress depth s (colon s) := by
  unfold colon
  split
  · rename_i cs hr
    dsimp only
    split
    · exact .ok .refl
    · have hb := not_mem_takeWhile (p := (· == ' ')) rfl cs
      have hs := sameLine_marked (by decide) hr ( takeWhile_prefix _) hb
      exact .ok (.token _ hs (Nat.succ_pos _) (by simp [hr]) (.self s) rfl (.of_none ⟨rfl, rfl⟩))
  · exact .ok .refl

/-! ## Code, comments and markup -/

theorem yields_blockCode (hh : env.hooks = []) (hne : env.Delegates depth) (s : Lexer)
    (hs : env.Fits s) : env.Progress depth s (env.blockCode s) := by
  obtain ⟨hw, hsh⟩ :=
    @passes_loneWord env depth "-" (by decide) .blockCode ⟨rfl, rfl⟩ ⟨rfl, rfl⟩ s
  unfold blockCode
  split
  · rename_i next h
    rw [h] at hw hsh
    have hn : Goes env depth s { next with interpolating := false } :=
      hw.goes.interpolating false
    have ht := yields_callPipelessText hh hne { next with interpolating := false } (hs.next hn.rest)
    exact .bind (ht.fitting hn.placed) fun after h' =>
      .ok (.trans hn (hsh rfl) h')
  · rename_i next h
    rw [h] at hw
    exact .ok hw

theorem yields_codeSource {source : List Char} :
    Yields (env.codeSource source s) (fun source' => source' <+: source) (env.Blames s.Placed) := by
  unfold codeSource
  split
  · split
    · rename_i hs
      obtain ⟨rest, -, hc⟩ := Nesting.scanUntilChar_cut hs
      exact .ok ⟨_, hc.symm⟩
    · exact .error (blames_scanDiagnostic _ (Walks.column _).toCounts)
  · exact .ok (prefix_refl _)

theorem not_atLineEnd_of_codeMarks? {marks : Nat × Bool × Bool} (h : codeMarks? cs = some marks) :
    ¬AtLineEnd cs := by
  unfold codeMarks? at h
  split at h
  · simp [AtLineEnd]
  · simp [AtLineEnd]
  · simp [AtLineEnd]
  · cases h

theorem yields_code (s : Lexer) : env.Progress depth s (env.code s) := by
  unfold code
  split
  · exact .ok .refl
  · rename_i marks escape buffer hm
    have hc := not_atLineEnd_of_codeMarks? hm
    obtain ⟨hpo, hl, hm⟩ := codeMarks?_cut hm
    have hn : s.rest ≠ [] := ne_nil_of_length_pos (Nat.lt_of_lt_of_le hpo hl)
    split
    · exact .ok .refl
    · rename_i gap line hli
      obtain ⟨-, blanks, after, hb, hcu, rfl⟩ := codeLine?_cut hli
      have hi : Walks s (s.advanceColumn (marks + blanks.length)) := .column _
      refine .bind (yields_codeSource.fitting hi.placed) fun source hs => ?_
      have hin : source <:+: s.rest :=
        (hs.isInfix.trans ⟨_, _, hcu.symm⟩).trans (drop_suffix _ _).isInfix
      have hh : blanks ++ source <+: blanks ++ line :=
        (prefix_append_right_inj blanks).mpr hs
      have hsa : SameLine (s.rest.drop (marks + blanks.length + source.length)) s.rest := by
        rw [Nat.add_assoc, ← length_append, ← drop_drop]
        refine SameLine.trans (.drop ?_ fun h => hb (hh.subset h)) (.of_take hm)
        exact hcu ▸ hh.trans (prefix_append _ _)
      have hw := hi.trans (.consume (s := s.advanceColumn _) hsa source.length)
      have hp (hv : (TokenKind.code (String.ofList source) escape buffer).Vouched
          env.validator) : Passes env depth s (true, (((s.advanceColumn
            (marks + blanks.length)).consume (marks + blanks.length + source.length)).advanceColumn
              source.length).pushAt (.code (String.ofList source) escape buffer) s.position) :=
        .read ⟨hw.pushFaced (.self s), .of_adds (.push .refl ⟨rfl, nofun⟩ hv)
          hw.toShifts hc⟩ (length_drop_lt hn (by omega))
      cases buffer with
      | true =>
        have hb' : '\n' ∉ source := fun h =>
          hb (hh.subset (mem_append_right _ h))
        exact .bind (yields_requireExpression_part ⟨rfl, Nat.le_add_right _ _⟩ hin)
          fun _ ha => .ok (hp (.of_line ⟨rfl, rfl⟩ ha hb'))
      | false => exact .ok (hp (.of_none ⟨rfl, rfl⟩))

theorem passes_addText {t u : Lexer} {lead text : List Char} (hle : lead ++ text ≠ [])
    (hcu : s.rest = lead ++ text ++ t.rest) (hb : '\n' ∉ lead ++ text)
    (hc : ¬AtLineEnd s.rest) (hw : Walks s t) (hl : t.line = s.line)
    (h : Gains env depth text t u) : Passes env depth s (true, u) := by
  have hsi : ∀ lines, s.Placed lines → u.Sited lines :=
    fun lines hs => h.sited lines (hw.sited lines hs)
  have hm : Moves env depth s u := .of_adds h.toAdds hw.toShifts hc
  -- The text is read to its end, or the interpolation ends in it and the rest of it is left.
  rcases h.rest with hr | ⟨-, hen, after, ⟨front, hf⟩, hr⟩
  · refine .read ⟨.onLine ⟨_, hb, hr ▸ hcu⟩ (h.line.trans hl) hsi, hm⟩ ?_
    have hlen := length_pos_iff.mpr hle
    have ht := congrArg length hcu
    rw [length_append] at ht
    rw [hr]
    omega
  · refine .finish ⟨.onLine ⟨lead ++ front, fun h => hb ?_, ?_⟩ (h.line.trans hl) hsi, hm⟩ hen
    · rw [← hf, ← append_assoc]
      exact mem_append_left _ h
    · rw [hr, hcu, ← hf]
      simp only [append_assoc]

theorem not_atLineEnd_of_textLine? {found : List Char × List Char} (h : textLine? cs = some found) :
    ¬AtLineEnd cs := by
  unfold textLine? at h
  split at h
  · simp [AtLineEnd]
  · simp [AtLineEnd]
  · cases h

theorem yields_text (hn : env.Delegates depth) (s : Lexer) : env.Progress depth s (env.text s) := by
  unfold text
  split
  · exact .ok .refl
  · rename_i lead text h
    obtain ⟨hne, hb, after, hcu⟩ := textLine?_cut h
    have hc := not_atLineEnd_of_textLine? h
    let next := (s.consume (lead.length + text.length)).advanceColumn lead.length
    have ht : '\n' ∉ text := fun h => hb (mem_append_right _ h)
    have hr : s.rest = lead ++ text ++ next.rest := by
      refine hcu.trans (congrArg _ ?_)
      show after = s.rest.drop (lead.length + text.length)
      rw [hcu, drop_left' length_append]
    have hnex : Walks s next := .consume ⟨_, hb, hr⟩ _
    exact .bind ((yields_addText hn .plain ht next).fitting hnex.sited) fun _ h =>
      .ok (passes_addText hne hr hb hc hnex rfl h)

theorem yields_textHtml (hn : env.Delegates depth) (s : Lexer) :
    env.Progress depth s (env.textHtml s) := by
  unfold textHtml
  split
  · rename_i cs hr
    have hne : [] ++ line s.rest ≠ [] := by
      rw [hr]
      exact cons_ne_nil _ _
    let next := s.consume (line s.rest).length
    have hnex : Walks s next := .along (.drop_line _) rfl (Nat.le_refl _) ⟨rfl, rfl, rfl⟩
    have hcu : s.rest = [] ++ line s.rest ++ next.rest :=
      (prefix_iff_eq_append.mp ( takeWhile_prefix _)).symm
    have hb : '\n' ∉ line s.rest := not_mem_line _
    have hc : ¬AtLineEnd s.rest := by simp [AtLineEnd, hr]
    exact .bind ((yields_addText hn .html hb next).fitting hnex.sited) fun _ h =>
      .ok (passes_addText hne hcu hb hc hnex rfl h)
  · exact .ok .refl

theorem yields_comment (hh : env.hooks = []) (hn : env.Delegates depth) (s : Lexer)
    (hs : env.Fits s) : env.Progress depth s (env.comment s) := by
  unfold comment
  split
  · rename_i cs hr
    dsimp only
    generalize String.ofList _ = text
    generalize (cs.head? != some '-') = buffer
    let width := (line s.rest).length
    let next : Lexer := { (s.push (.comment text buffer)).consume width with
      interpolating := buffer }.advanceColumn width
    have hg : Goes env depth s next := by
      have hw : Walks s ((s.consume width).advanceColumn width) := .consume (.drop_line _) width
      exact (hw.push (.self s) rfl (.of_none ⟨rfl, rfl⟩)).interpolating buffer
    have hsh : next.rest.length < s.rest.length := by
      have hp : 0 < width := by
        show 0 < (line s.rest).length
        rw [hr]
        exact Nat.succ_pos _
      have hne : s.rest ≠ [] := by simp [hr]
      exact length_drop_lt hne hp
    have ht := yields_callPipelessText hh hn next (hs.next hg.rest)
    exact .bind (ht.fitting hg.placed) fun _ h =>
      .ok (.trans hg hsh h)
  · exact .ok .refl

/-! ## Indentation -/

theorem yields_closeIndents (width : Nat) (indents : List Nat) (s : Lexer) :
    Yields (env.closeIndents width indents s) (Stays s) (env.Blames s.Sited) := by
  induction indents generalizing s with
  | nil => exact .ok .refl
  | cons current outer ih =>
    unfold closeIndents
    split
    · exact .ok .refl
    · dsimp only
      split
      · exact .error (.along (by rintro ⟨⟩) .refl)
      · have hc : Stays s { s with column := outer.headD 0 + 1, indents := outer } := by
          refine ⟨rfl, rfl, fun lines hs => ⟨?_, hs.tokens⟩⟩
          exact ⟨hs.position.first, hs.position.last, Nat.le_add_left _ _⟩
        have ho := hc.push .outdent
        exact (ih _).mono (fun _ h => ho.trans h) fun _ h => h.mono ho.sited

theorem yields_indent (s : Lexer) : Yields (env.indent s) (Advances s) (env.Blames s.Placed) := by
  unfold indent
  have h₁ := (walks_indentation? s).toCounts
  have hb := @indentation?_rest s
  have hsa := rest_indentation? s
  generalize s.indentation? = found at h₁ hb hsa
  obtain ⟨width, t⟩ := found
  dsimp only at h₁ hsa ⊢
  split
  · exact .ok (.unread h₁ hsa)
  · rename_i width
    obtain ⟨cs, hcs, -, hw⟩ := hb rfl
    rw [← hsa] at hcs
    -- The lexer goes down by one line, and drops one line break.
    have hd : Walks t ((t.advanceLine 1).consume (width + 1)) := by
      refine .down (drop_suffix _ _) (Nat.le_add_right _ _) ?_ (fun _ => Nat.le_refl _)
        ⟨rfl, rfl, rfl⟩
      have hcou := congrArg (count '\n') (take_append_drop width cs)
      rw [count_append, count_eq_zero.mpr hw] at hcou
      show t.line + 1 + (t.rest.drop (width + 1)).count '\n' + 0 = t.line + t.rest.count '\n'
      rw [hcs, drop_succ_cons, count_cons_self]
      omega
    have hsh : ((t.advanceLine 1).consume (width + 1)).rest.length < s.rest.length := by
      have hne : t.rest ≠ [] := by simp [hcs]
      rw [← hsa]
      exact length_drop_lt hne (Nat.succ_pos _)
    have hc := h₁.trans hd.toCounts
    have hfl (next : Lexer) (flag : Bool) : Counts next { next with interpolating := flag } :=
      .onLine (.refl _) rfl fun _ hs => ⟨hs.position, hs.tokens⟩
    generalize (t.advanceLine 1).consume (width + 1) = u at hc hsh
    split
    · exact .error (.ahead nofun hc)
    · exact .error (.ahead nofun hc)
    · exact .ok (.read (hc.trans (hfl _ _)) hsh)
    · have hf : ∀ next, Stays u next → Advances s (true, { next with interpolating := true }) :=
        fun next hn => .read ((hc.trans hn.counts).trans (hfl _ _)) (hn.rest ▸ hsh)
      have hco : ∀ (kind : TokenKind) (n : Nat) (indents : List Nat),
          Stays u { u.push kind with column := n + 1, indents } := by
        intro kind n indents
        refine (Stays.refl.push kind).trans ⟨rfl, rfl, fun lines hs => ⟨?_, hs.tokens⟩⟩
        exact ⟨hs.position.first, hs.position.last, Nat.le_add_left _ _⟩
      split
      · exact .bind ((yields_closeIndents _ _ _).fitting hc.sited) fun next h =>
          .ok (hf next h)
      · split
        · exact .ok (hf _ (hco _ _ _))
        · exact .ok (hf _ (hco _ _ _))

theorem indentation?_of_not_mem (h : '\n' ∉ s.rest) : s.indentation? = (none, s) := by
  unfold indentation?
  split
  · rename_i hr
    exact absurd (hr ▸ mem_cons_self ..) h
  · rfl

theorem indent_of_not_mem (h : '\n' ∉ s.rest) : env.indent s = .ok (false, s) := by
  unfold indent
  rw [indentation?_of_not_mem h]

/-! ## Steps and runs -/

/-- Every rule but those of indentation and of the end passes on, or blames the template. Only the
rule of calls does not count all of the line breaks that it drops. -/
theorem yields_rules (hh : env.hooks = []) (hn : env.Delegates depth)
    (hr : rule ∈ env.rules) (s : Lexer) (hs : env.Fits s) :
    rule = (.eos, env.eos) ∨ rule = (.indent, env.indent) ∨ rule = (.call, env.mixinCall) ∨
      rule.1 ≠ .call ∧ env.Progress depth s (rule.2 s) := by
  simp only [rules, mem_cons, not_mem_nil, or_false] at hr
  rcases hr with rfl | rfl | rfl | rfl | rfl | rfl | rfl | rfl | rfl | rfl | rfl | rfl | rfl |
    rfl | rfl | rfl | rfl | rfl | rfl | rfl | rfl | rfl | rfl | rfl | rfl | rfl | rfl | rfl | rfl |
    rfl | rfl | rfl | rfl | rfl | rfl
  all_goals first
    | exact .inl rfl
    | exact .inr (.inl rfl)
    | exact .inr (.inr (.inl rfl))
    | refine .inr (.inr (.inr ⟨by rintro ⟨⟩, ?_⟩))
  · exact yields_blank s
  · exact yields_endInterpolation s
  · exact .ok (passes_loneWord (by decide) ⟨rfl, rfl⟩ ⟨rfl, rfl⟩ s).1
  · exact yields_doctype s
  · exact yields_interpolation s
  · exact yields_case s
  · exact yields_when s
  · exact yields_defaultCase s
  · exact yields_extendsPath hh s
  · exact yields_namedBlock (fun h => (blockCommand?_cut h).2 (by decide)) _ s
  · exact yields_namedBlock (fun h => (blockCommand?_cut h).2 (by decide)) _ s
  · exact yields_namedBlock (fun h => (blockLine?_cut h).2 (by decide)) _ s
  · exact .ok (passes_loneWord (by decide) ⟨rfl, rfl⟩ ⟨rfl, rfl⟩ s).1
  · exact yields_includeFile hh hn s
  · exact yields_mixin s
  · exact yields_conditional s
  · exact yields_each s
  · exact yields_whileLoop s
  · exact yields_tag s
  · exact yields_filter hh hn false s fun _ => hs
  · exact yields_blockCode hh hn s hs
  · exact yields_code s
  · exact yields_idName s
  · exact yields_dot hh hn s hs
  · exact yields_className s
  · exact yields_attributes depth s
  · exact yields_spreadAttributes s
  · exact yields_text hn s
  · exact yields_textHtml hn s
  · exact yields_comment hh hn s hs
  · exact yields_slash s
  · exact yields_colon s

theorem fits_plus {rule : Rule} (h : rule.fits ('+' :: cs)) : rule = .call := by
  cases rule
  case call => rfl
  all_goals
    simp [Rule.fits, Rule.words, afterWord?, tagName?, isPlainWord] at h

theorem callBreaks_eq_zero {rule : Rule} (h : rule.fits s.rest) (hr : rule ≠ .call) :
    s.callBreaks = 0 := by
  unfold callBreaks
  split
  · rename_i cs hre
    rw [hre] at h
    exact absurd (fits_plus h) hr
  · rfl

/-- What any rule does, and what it does inside of a tag interpolation. -/
structure Steps (env : Setting) (depth : Nat) (s : Lexer) (out : Bool × Lexer) (lost : Nat := 0) :
    Prop extends Advances s out lost where
  moves : env.interpolated = true → Moves env depth s out.2

theorem yields_rule (hh : env.hooks = []) (hn : env.Delegates depth)
    (hr : rule ∈ env.rules) (s : Lexer) (hs : env.Fits s) :
    Yields (rule.2 s) (fun out => Steps env depth s out (if out.1 then s.callBreaks else 0))
      (env.Blames s.Placed) := by
  cases hf : rule.1.fits s.rest with
  | false =>
    rw [declines hr hf]
    exact .ok ⟨.unread .refl rfl, fun _ => .refl⟩
  | true =>
    have hl (ho : rule.1 ≠ .call) {out : Bool × Lexer} (h : Advances s out) :
        Advances s out (if out.1 then s.callBreaks else 0) := by
      rw [callBreaks_eq_zero hf ho, ite_self]
      exact h
    rcases yields_rules hh hn hr s hs with rfl | rfl | rfl | ⟨ho, hy⟩
    · refine (yields_eos s).mono (fun out h => ⟨hl (by rintro ⟨⟩) h.1, fun hi => ?_⟩) fun _ h => h
      rw [h.2 hi]
      exact .refl
    · have hst : Ensures (env.indent s) fun out => env.interpolated = true → out.2 = s := by
        intro out hou hi
        rw [indent_of_not_mem (hs hi)] at hou
        exact (Prod.mk.inj (Except.ok.inj hou)).2.symm
      refine ((yields_indent s).and hst).mono
        (fun out h => ⟨hl (by rintro ⟨⟩) h.1, fun hi => ?_⟩) fun _ h => h
      rw [h.2 hi]
      exact .refl
    · exact (yields_mixinCall s).mono (fun _ h => ⟨h.toAdvances, fun _ => h.toMoves⟩) fun _ h => h
    · exact hy.mono (fun out h => ⟨hl ho h.toAdvances, fun _ => h.toMoves⟩) fun _ h => h

theorem yields_tryRules (hh : env.hooks = []) {rules : List (Rule × (Lexer → Step))}
    (hr : ∀ rule ∈ rules, ∀ t, env.Fits t →
      Yields (rule.2 t) (fun out => Steps env depth t out (if out.1 then t.callBreaks else 0))
        (env.Blames t.Placed))
    (s : Lexer) (hs : env.Fits s) :
    Yields (env.tryRules rules s) (fun out => out.1 = true ∧ Steps env depth s out s.callBreaks)
      (env.Blames s.Placed) := by
  induction rules generalizing s with
  | nil => exact .error (.here (by rintro ⟨⟩))
  | cons rule rules ih =>
    obtain ⟨hru, hr⟩ := forall_mem_cons.mp hr
    unfold tryRules
    rw [call_eq hh]
    refine .bind (hru s hs) ?_
    rintro ⟨matched, t⟩ ht
    cases matched with
    | true => exact .ok ⟨rfl, ht⟩
    | false =>
      refine (ih hr t (hs.next ht.rest)).mono (fun out h => ⟨h.1, ?_⟩) fun _ h => h.mono ht.placed
      rw [← callBreaks_congr (ht.declined rfl)]
      exact ⟨ht.toAdvances.after h.2.toAdvances, fun hi => (ht.moves hi).trans (h.2.moves hi)⟩

/-- **One step** of the lexer: it reads something, or ends. It loses line breaks only at a call. -/
theorem yields_advance (hh : env.hooks = []) (hn : env.Delegates depth) (s : Lexer)
    (hs : env.Fits s) :
    Yields (env.advance s) (fun out => out.1 = true ∧ Steps env depth s out s.callBreaks)
      (env.Blames s.Placed) :=
  yields_tryRules hh (fun _ hr t => yields_rule hh hn hr t) s hs

/-- What a run does: it ends, and inside of a tag interpolation it only moves. -/
structure Ran (env : Setting) (depth : Nat) (s t : Lexer) : Prop extends Proceeds s t where
  ended : t.ended = true
  moves : env.interpolated = true → Moves env depth s t

theorem yields_runSteps (hh : env.hooks = []) (hn : env.Delegates depth) (n : Nat)
    (s : Lexer) (hs : env.Fits s) :
    Yields (env.runSteps n s) (Ran env depth s) (env.Blames s.Placed) := by
  induction n generalizing s with
  | zero =>
    unfold runSteps
    split
    · exact .ok ⟨.refl, ‹_›, fun _ => .refl⟩
    · exact .error (.here (by rintro ⟨⟩))
  | succ n ih =>
    unfold runSteps
    split
    · exact .ok ⟨.refl, ‹_›, fun _ => .refl⟩
    · rw [call_eq hh]
      refine .bind (yields_advance hh hn s hs) fun out ha => ?_
      have ho := ha.2
      refine (ih out.2 (hs.next ho.rest)).mono (fun _ h => ?_) fun _ h => h.mono ho.placed
      exact ⟨ho.toProceeds.trans h.toProceeds, h.ended, fun hi => (ho.moves hi).trans (h.moves hi)⟩

theorem yields_run (hh : env.hooks = []) (hn : env.Delegates depth) (s : Lexer)
    (hs : env.Fits s) : Yields (env.run s) (Ran env depth s) (env.Blames s.Placed) :=
  yields_runSteps hh hn _ s hs

theorem hooks_nesting (env : Setting) (n : Nat) : (env.nesting n).hooks = env.hooks := by
  cases n <;> rfl

theorem validator_nesting (env : Setting) (n : Nat) :
    (env.nesting n).validator = env.validator := by
  cases n <;> rfl

theorem interpolated_nesting (env : Setting) (n : Nat) :
    (env.nesting n).interpolated = env.interpolated := by
  cases n <;> rfl

theorem file_nesting (env : Setting) (n : Nat) : (env.nesting n).file = env.file := by
  cases n <;> rfl

theorem delegates_nesting (hh : env.hooks = []) (n : Nat) : (env.nesting n).Delegates n := by
  induction n with
  | zero => exact fun _ hr => absurd hr nofun
  | succ n ih =>
    intro read hr
    cases hr
    refine ⟨n, rfl, fun s hb => ?_⟩
    have hh' : (env.nesting n).hooks = [] := (hooks_nesting env n).trans hh
    -- The lexer inside has one level less, and ends at a bracket.
    let inner : Setting := { env.nesting n with interpolated := true }
    have hi : inner.Delegates n := by
      intro read hr
      obtain ⟨below, hbe, h⟩ := ih read hr
      exact ⟨below, hbe, fun t ht => (h t ht).mono (fun _ h => h) fun _ h => h.of_eq rfl rfl⟩
    have hv : inner.validator = (env.nesting (n + 1)).validator := validator_nesting env n
    refine (@yields_run inner n hh' hi s fun _ => hb).mono (fun t h => ?_)
      fun _ h => h.of_eq (file_nesting env n).symm hv.symm
    have hm : Moves inner n s t := h.moves rfl
    exact ⟨h.toProceeds, hv ▸ hm.tokens, hm.dotted⟩

end Setting

/-- **The tokens of a template** have their places in it, and so does what is wrong with it. -/
theorem yields_tokenize (file : Option String) (validator : Validator) (source : String) :
    let lines := (splitLines (normalize source)).length
    Yields (tokenize { file, validator } source)
      (fun tokens => ∀ t ∈ tokens, t.position.InLines lines)
      (fun d => d.file = file ∧ d.category ≠ .endOfStream ∧
        (validator.StaysInside → d.position.InLines lines)) := by
  intro lines
  let env : Setting := { file, validator }
  have hs : ({ rest := normalize source } : Lexer).Placed lines := by
    have hl : lines = (normalize source).count '\n' + 1 := length_splitLines _
    refine ⟨⟨⟨Nat.le_refl _, ?_, Nat.le_refl _⟩, nofun⟩, ?_⟩
    · exact hl ▸ Nat.le_add_left _ _
    · exact Nat.le_of_eq (hl ▸ Nat.add_comm _ _)
  have hr := (env.nesting maxInterpolationDepth).yields_run (hooks_nesting env _)
    (delegates_nesting rfl _) { rest := normalize source } fun h => by
      cases h
  refine .bind (hr.mono (fun _ h => h) fun d hd => ?_) fun t ht => .ok ?_
  · exact ⟨hd.file, hd.category, fun hv => hd.position hv lines hs⟩
  · intro token hto
    exact (ht.placed lines hs).tokens token (mem_reverse.mp hto)

end PugTemplate
