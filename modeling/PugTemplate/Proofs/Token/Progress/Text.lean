import PugTemplate.Proofs.Token.Progress.Attributes
import PugTemplate.Proofs.Token.Progress.Words
/-!
# Progress at blocks of text
-/

namespace PugTemplate

open List Text Lexer

/-! ## Blocks of text -/

/-- There are so many lines between the lexer and the text that is left. -/
def Lexer.Above (s : Lexer) (n lines : Nat) : Prop :=
  s.Sited lines ∧ s.line + n + s.rest.count '\n' ≤ lines

variable {t s : Lexer} {n lines : Nat}

theorem Lexer.Above.of_stays (h : s.Above n lines) (ht : Stays s t) : t.Above n lines := by
  refine ⟨ht.sited lines h.1, ?_⟩
  rw [ht.line, ht.rest]
  exact h.2

theorem Lexer.Above.advanceLine (h : s.Above (n + 1) lines) : (s.advanceLine 1).Above n lines := by
  have hl : s.line + (n + 1) + s.rest.count '\n' ≤ lines := h.2
  refine ⟨⟨⟨Nat.le_add_left _ _, ?_, Nat.le_refl _⟩, h.1.tokens⟩, ?_⟩
  all_goals
    dsimp only [position, Lexer.advanceLine]
    omega

theorem Gains.stays {env : Setting} {depth : Nat} {text : List Char}
    (h : Gains env depth text s t) (hi : env.interpolated = false) : Stays s t := by
  refine ⟨h.rest.resolve_right fun ⟨hc, _⟩ => ?_, h.line, h.sited⟩
  rw [hi] at hc
  cases hc

/-- The lines of a block are the front of the text, each behind its line break. -/
theorem block_cut (inBlock : List Char → Bool) (cs : List Char) :
    let block := (splitLines cs).takeWhile inBlock
    ∃ after, '\n' :: cs = block.flatMap (fun line => '\n' :: line) ++ after ∧
      (block.flatMap fun line => '\n' :: line).count '\n' = block.length := by
  intro block
  refine ⟨((splitLines cs).dropWhile inBlock).flatMap fun line => '\n' :: line, ?_, ?_⟩
  · rw [← flatMap_append, takeWhile_append_dropWhile, flatMap_splitLines]
  · have hb : ∀ line ∈ block, '\n' ∉ line := fun line hl =>
      (mem_splitLines (( takeWhile_prefix _).subset hl)).1
    clear_value block
    induction block with
    | nil => rfl
    | cons line block ih =>
      obtain ⟨hl, hb⟩ := forall_mem_cons.mp hb
      rw [flatMap_cons, count_append, count_cons_self, count_eq_zero.mpr hl, ih hb, length_cons]
      omega

namespace Setting

variable {env : Setting} {depth : Nat}

theorem yields_repeatCall (depth : Nat) (hh : env.hooks = []) {rule : Rule} {own : Lexer → Step}
    (ho : ∀ s, env.Progress depth s (own s)) (n : Nat) (s : Lexer) :
    Yields (env.repeatCall rule own n s) (Goes env depth s) (env.Blames s.Placed) := by
  induction n generalizing s with
  | zero => exact .ok .refl
  | succ n ih =>
    unfold repeatCall
    rw [call_eq hh]
    refine .bind (ho s) ?_
    rintro ⟨matched, t⟩ ht
    cases matched with
    | true => exact (ih t).mono (fun _ h => ht.goes.trans h) fun _ h => h.mono ht.placed
    | false => exact .ok ht.goes

theorem yields_addLines (hn : env.Delegates depth) (hi : env.interpolated = false)
    (width : Nat) (first : Bool) (texts : List (List Char)) (hte : ∀ text ∈ texts, '\n' ∉ text)
    (s : Lexer) :
    Yields (env.addLines width first texts s)
      (fun t => Adds env depth s t ∧ t.rest = s.rest ∧ t.line = s.line + texts.length ∧
        ∀ lines, s.Above texts.length lines → t.Sited lines)
      (env.Blames (s.Above texts.length)) := by
  induction texts generalizing first s with
  | nil => exact .ok ⟨.refl, rfl, rfl, fun _ h => h.1⟩
  | cons text texts ih =>
    obtain ⟨htex, hte⟩ := forall_mem_cons.mp hte
    have hl : Takes env depth (s.advanceLine 1)
        ((if first then s.advanceLine 1 else (s.advanceLine 1).push .newline).advanceColumn
          width) := by
      have hp : Adds env depth (s.advanceLine 1) ((s.advanceLine 1).push .newline) :=
        .push .refl ⟨rfl, nofun⟩ (.of_none ⟨rfl, rfl⟩)
      cases first
      · exact ⟨(Stays.refl.push _).advanceColumn width, hp.trans (.of_shifts ⟨rfl, rfl, rfl⟩)⟩
      · exact .of_shifts (Stays.refl.advanceColumn width) ⟨rfl, rfl, rfl⟩
    have ha : ∀ lines, s.Above (texts.length + 1) lines → _ :=
      fun lines h => h.advanceLine.of_stays hl.toStays
    refine .bind ((yields_addText hn .plain htex _).fitting fun lines hs =>
      (ha lines hs).1) fun t hg => ?_
    have ht := hg.stays hi
    have had : Adds env depth s t :=
      .trans (t := s.advanceLine 1) (.of_shifts ⟨rfl, rfl, rfl⟩) (hl.toAdds.trans hg.toAdds)
    have ha' : ∀ lines, s.Above (texts.length + 1) lines → t.Above texts.length lines :=
      fun lines h => (ha lines h).of_stays ht
    refine (ih false hte t).mono ?_ fun _ h => h.mono ha'
    rintro u ⟨hu, hur, hul, hsi⟩
    refine ⟨had.trans hu, (hur.trans ht.rest).trans hl.rest, ?_, fun lines h => hsi _ (ha' lines h)⟩
    rw [hul, ht.line, hl.line, length_cons, Nat.add_comm texts.length, ← Nat.add_assoc]
    rfl

theorem indentation?_rest {s t : Lexer} {width : Nat} (h : s.indentation? = (some width, t)) :
    ∃ cs, s.rest = '\n' :: cs ∧ width ≤ cs.length ∧ '\n' ∉ cs.take width := by
  have hr : ∀ (cs : List Char) (p : Char → Bool), p '\n' = false →
      (cs.takeWhile p).length ≤ cs.length ∧ '\n' ∉ cs.take (cs.takeWhile p).length := by
    intro cs p hp
    refine ⟨( takeWhile_prefix p).length_le, ?_⟩
    rw [← prefix_iff_eq_take.mp ( takeWhile_prefix p)]
    exact Pattern.not_mem_takeWhile hp cs
  unfold indentation? at h
  split at h
  · rename_i cs hre
    refine ⟨cs, hre, ?_⟩
    have ht := hr cs (· == '\t') rfl
    have hs := hr cs (· == ' ') rfl
    dsimp only at h
    split at h
    · obtain ⟨hw, -⟩ := Prod.mk.inj h
      exact Option.some.inj hw ▸ ht
    · obtain ⟨hw, -⟩ := Prod.mk.inj h
      exact Option.some.inj hw ▸ hs
    · split at h
      · obtain ⟨hw, -⟩ := Prod.mk.inj h
        exact Option.some.inj hw ▸ ht
      · split at h
        · obtain ⟨hw, -⟩ := Prod.mk.inj h
          exact Option.some.inj hw ▸ hs
        · obtain ⟨hw, -⟩ := Prod.mk.inj h
          exact Option.some.inj hw ▸ ⟨Nat.zero_le _, by simp⟩
  · cases h

theorem indentation?_eq (s : Lexer) : ∃ style, s.indentation?.2 = { s with style } := by
  unfold indentation?
  split
  · dsimp only
    split
    · exact ⟨_, rfl⟩
    · exact ⟨_, rfl⟩
    · split
      · exact ⟨_, rfl⟩
      · split
        · exact ⟨_, rfl⟩
        · exact ⟨_, rfl⟩
  · exact ⟨_, rfl⟩

theorem rest_indentation? (s : Lexer) : s.indentation?.2.rest = s.rest := by
  obtain ⟨style, hs⟩ := indentation?_eq s
  rw [hs]

theorem walks_indentation? (s : Lexer) : Walks s s.indentation?.2 := by
  obtain ⟨style, hs⟩ := indentation?_eq s
  rw [hs]
  exact .along (.refl _) rfl (Nat.le_refl _) ⟨rfl, rfl, rfl⟩

theorem length_dropEmptyEnd (lines : List (List Char)) :
    (dropEmptyEnd lines).length ≤ lines.length := by
  unfold dropEmptyEnd
  rw [length_reverse]
  exact Nat.le_trans (dropWhile_suffix _).length_le (Nat.le_of_eq length_reverse)

/-- The tokens of a block of text, between those for its ends. A block has as many lines as it has
line breaks. The empty ones at the end of the template are left out. -/
theorem yields_block (hn : env.Delegates depth) (hi : env.interpolated = false)
    (width : Nat) (inBlock : List Char → Bool) {s : Lexer} {cs : List Char}
    (hr : s.rest = '\n' :: cs) :
    let block := (splitLines cs).takeWhile inBlock
    let count := (block.flatMap fun line => '\n' :: line).length
    let texts := block.map (dropBytes width)
    let inside := (s.push .startPipelessText).consume count
    Yields (do
      let t ← env.addLines width true
        (if inside.rest.isEmpty then dropEmptyEnd texts else texts) inside
      pure (true, t.push .endPipelessText) : Step) (fun out => Goes env depth s out.2)
      (env.Blames s.Placed) := by
  intro block count texts inside
  generalize hw : (if inside.rest.isEmpty then dropEmptyEnd texts else texts) = written
  have htex : ∀ text ∈ written, '\n' ∉ text := by
    subst hw
    intro text hte
    split at hte
    · exact (mem_blockTexts (dropEmptyEnd_subset _ hte)).1
    · exact (mem_blockTexts hte).1
  have hle : written.length ≤ block.length ∧
      (inside.rest ≠ [] → written.length = block.length) := by
    subst hw
    split
    · rename_i hem
      refine ⟨?_, fun hne => absurd (isEmpty_iff.mp hem) hne⟩
      exact Nat.le_trans (length_dropEmptyEnd _) (Nat.le_of_eq (length_map _))
    · exact ⟨Nat.le_of_eq (length_map _), fun _ => length_map _⟩
  obtain ⟨after, hcu, hc⟩ := block_cut inBlock cs
  have hd : inside.rest = after := by
    show s.rest.drop count = after
    rw [hr, hcu]
    exact drop_left
  have hb : s.rest.count '\n' = block.length + after.count '\n' := by
    rw [hr, hcu, count_append, hc]
  have ha : ∀ lines, s.Placed lines → inside.Above written.length lines := by
    intro lines hs
    have hp : (s.push .startPipelessText).Placed lines := Counts.refl.push.placed lines hs
    have hl : s.line + s.rest.count '\n' ≤ lines := hs.last
    refine ⟨⟨hp.position, hp.tokens⟩, ?_⟩
    show s.line + written.length + inside.rest.count '\n' ≤ lines
    rw [hd]
    omega
  refine .bind ((yields_addLines hn hi width true _ htex _).fitting ha) ?_
  rintro t ⟨had, ht, hli, hsi⟩
  have hl : t.lastLine = s.line + written.length + after.count '\n' := by
    unfold lastLine
    rw [ht, hli, hd]
    rfl
  obtain ⟨new, hnew, hto⟩ := had.tokens
  have his : Issued env.validator depth
      (⟨.startPipelessText, s.position⟩ :: (new ++ [⟨.endPipelessText, t.position⟩])) :=
    .enclose (hnew.toFlat.pipelessText rfl rfl) hnew.vouched (.of_none ⟨rfl, rfl⟩)
      (.of_none ⟨rfl, rfl⟩)
  refine .ok ⟨.push ⟨⟨ht ▸ drop_suffix _ _, fun lines hs => ?_⟩, fun hne => ?_⟩, ?_⟩
  · exact ⟨hsi lines (ha lines hs), by rw [hl, ← hd]; exact (ha lines hs).2⟩
  · rw [hl, hle.2 (ht ▸ hne), Nat.add_zero, Nat.add_assoc, ← hb]
    rfl
  · exact .enclose had.indents had.ended his (congrArg _ hto)
      (fun h => hto ▸ had.undotted h) ⟨nofun, rfl⟩ nofun

theorem yields_pipelessText (hh : env.hooks = []) (hn : env.Delegates depth) (s : Lexer)
    (hs : env.Fits s) :
    Yields (env.pipelessText s) (fun out => Goes env depth s out.2) (env.Blames s.Placed) := by
  refine .bind (yields_repeatCall depth hh yields_blank _ s) fun s₁ h₁ => ?_
  have hb := @indentation?_rest s₁
  have hsa := rest_indentation? s₁
  have h₂ := h₁.trans ((walks_indentation? s₁).goes (hsa ▸ id))
  generalize s₁.indentation? = found at h₂ hb hsa
  obtain ⟨width, s₂⟩ := found
  dsimp only at h₂ hsa ⊢
  split
  · exact .ok h₂
  · split
    · exact .ok h₂
    · obtain ⟨cs, hc, -⟩ := hb rfl
      rw [← hsa] at hc
      -- There is a line break, so the lexer is not inside of a tag interpolation.
      have hi : env.interpolated = false := by
        refine Bool.eq_false_iff.mpr fun h => hs.next h₂.rest h ?_
        rw [hc]
        exact mem_cons_self ..
      have hl : splitLines (s₂.rest.drop 1) = splitLines cs := by rw [hc]; rfl
      rw [hl]
      exact Yields.mono (yields_block hn hi _ _ hc) (fun _ h => h₂.trans h)
        fun _ h => h.mono h₂.placed

theorem yields_callPipelessText (hh : env.hooks = []) (hn : env.Delegates depth) (s : Lexer)
    (hs : env.Fits s) : Yields (env.callPipelessText s) (Goes env depth s) (env.Blames s.Placed) := by
  unfold callPipelessText
  rw [call_eq hh]
  exact .bind (yields_pipelessText hh hn s hs) fun _ h => .ok h

theorem yields_filter (hh : env.hooks = []) (hne : env.Delegates depth) (inInclude : Bool)
    (s : Lexer) (hs : inInclude = false → env.Fits s) :
    env.Progress depth s (env.filter inInclude s) := by
  unfold filter
  split
  · rename_i cs hr
    split
    · exact .ok .refl
    · rename_i name hna
      dsimp only
      rw [call_eq hh]
      obtain ⟨-, hhe, hb⟩ := Pattern.name?_cut hna
      have hg : Goes env depth s (((s.consume (name.length + 1)).advanceColumn
          (name.length + 1)).pushAt (.filter (String.ofList name)) s.position) :=
        Walks.push (.consume (sameLine_marked (by decide) hr hhe hb) _) (.self s) rfl (.of_none ⟨rfl, rfl⟩)
      have hsh : (s.rest.drop (name.length + 1)).length < s.rest.length :=
        length_drop_lt (by simp [hr]) (Nat.succ_pos _)
      refine .bind ((yields_attributes depth _).fitting hg.placed) fun ⟨_, next⟩ h => ?_
      split
      · exact .ok (.trans hg hsh h.goes)
      · rename_i hi
        have hn : Goes env depth s { next with interpolating := false } :=
          (hg.trans h.goes).interpolating false
        have ht := yields_callPipelessText hh hne { next with interpolating := false }
          ((hs (Bool.eq_false_iff.mpr hi)).next hn.rest)
        refine .bind (ht.fitting hn.placed) fun after h' => .ok ?_
        have hl : after.rest.length ≤ (s.rest.drop (name.length + 1)).length :=
          (h'.rest.trans h.rest).length_le
        exact .read (hn.trans h') (Nat.lt_of_le_of_lt hl hsh)
  · exact .ok .refl

theorem yields_includeFile (hh : env.hooks = []) (hn : env.Delegates depth) (s : Lexer) :
    env.Progress depth s (env.includeFile s) := by
  unfold includeFile
  split
  · exact .ok .refl
  · rename_i rest hr
    split
    · have hhe : "include".toList <+: s.rest := ⟨rest, (Pattern.afterWord?_cut hr).symm⟩
      have hw : Goes env depth s (((s.push .include).consume 7).advanceColumn 7) :=
        Walks.push (.consume (.drop hhe (by decide)) 7) (.self s) rfl (.of_none ⟨rfl, rfl⟩)
      have hs : (s.rest.drop 7).length < s.rest.length :=
        length_drop_lt (ne_nil_of_afterWord? (by decide) hr) (by omega)
      have hf : ∀ t, Yields (env.filter true t) (Passes env depth t) (env.Blames t.Placed) :=
        fun t => yields_filter hh hn true t nofun
      refine .bind ((yields_repeatCall depth hh hf _ _).fitting hw.placed) fun next h => ?_
      rw [call_eq hh]
      refine .bind ((yields_path depth _).fitting (hw.trans h).placed) fun ⟨matched, after⟩ h' => ?_
      have ha := ((hw.trans h).trans h').toCounts
      dsimp only
      split
      · exact .ok (.trans hw hs (h.trans h'))
      · split
        · exact .error (.ahead nofun ha)
        · split
          · exact .error (.ahead nofun ha)
          · exact .error (.ahead nofun ha)
    · exact yields_reject nofun

end Setting
end PugTemplate
