import PugTemplate.Proofs.Token.Places
/-!
# Progress at attributes
-/

namespace PugTemplate

open List Bool

/-! ## Attributes -/

/-- The place of an attribute that is being read. The lexer stays on the line where the attribute
starts, and the reader goes down with the text. -/
structure AttributeReader.Placed (r : AttributeReader) (s : Lexer) (cs : List Char) (lines : Nat) :
    Prop extends s.Sited lines where
  start : 1 ≤ r.start
  valueStart : 1 ≤ r.valueStart
  line : s.line ≤ r.line
  last : r.line + cs.count '\n' ≤ lines
  /-- The value of an attribute is below its name. -/
  value : r.isUnnamed = true ∨ s.line + r.value.count '\n' ≤ r.line
  /-- Only a value that is being read is not empty. -/
  part : (∃ nesting, r.part = .value nesting) ∨ r.value = []

/-- What a character does to a reader: it may be added to the value. -/
structure AttributeReader.Takes (r : AttributeReader) (s : Lexer) (c : Char)
    (r' : AttributeReader) : Prop where
  line : r'.line = r.line
  start : r'.start = r.start
  valueStart : r'.valueStart = r.valueStart ∨ r'.valueStart = s.column + 1
  value : r'.value = [] ∨ r'.name = r.name ∧ r'.value = r.value ++ [c]
  part : (∃ nesting, r'.part = .value nesting) ∨ r'.value = []

namespace AttributeReader

variable {r r' : AttributeReader} {s : Lexer} {c : Char} {cs : List Char} {lines : Nat}

theorem Placed.mark (h : r.Placed s cs lines) : (r.mark s).Placed s cs lines := by
  unfold AttributeReader.mark
  split
  · exact { h with start := h.position.column }
  · exact h

theorem Placed.pass (h : r.Placed s (c :: cs) lines) (ht : r.Takes s c r') :
    (r'.pass s c).1.Placed (r'.pass s c).2 cs lines := by
  have hl := h.last
  have hli := h.line
  have hp := h.position
  have hs : 1 ≤ r'.start := ht.start ▸ h.start
  have hval : 1 ≤ r'.valueStart := by
    rcases ht.valueStart with hv | hv
    · exact hv ▸ h.valueStart
    · omega
  have hva : r'.isUnnamed ∨ s.line + r'.value.count '\n' ≤ r.line + [c].count '\n' := by
    rcases ht.value with hni | ⟨hna, hva⟩
    · rw [hni, count_nil]
      omega
    · have hn : r'.isUnnamed = r.isUnnamed := congrArg Text.isBlankText hna
      rw [hn, hva, count_append]
      exact h.value.imp_right fun hv => by omega
  unfold AttributeReader.pass
  split
  · -- Before the name of an attribute, the lexer goes down with the reader. Then it stays.
    rename_i hc
    obtain rfl := beq_iff_eq.mp hc
    rw [count_cons_self] at hl
    rw [count_singleton_self] at hva
    have hl' := ht.line
    refine ⟨⟨⟨?_, ?_, Nat.le_refl _⟩, h.tokens⟩, hs, hval, ?_, ?_, ?_, ht.part⟩
    all_goals dsimp only [Lexer.position]
    · have hf : 1 ≤ s.line := hp.first
      split <;> omega
    · split <;> omega
    · split <;> omega
    · omega
    · by_cases hu : r'.isUnnamed
      · exact .inl hu
      · rw [if_neg hu]
        have hb := hva.resolve_left hu
        exact .inr (by omega)
  · rename_i hc
    have hc : c ≠ '\n' := fun h => hc (beq_iff_eq.mpr h)
    rw [count_cons_of_ne hc] at hl
    have hz : [c].count '\n' = 0 := count_eq_zero.mpr (by simpa using hc.symm)
    rw [hz] at hva
    refine ⟨⟨h.inLines ⟨rfl, Nat.le_add_right _ _⟩, h.tokens⟩, hs, hval, ?_, ?_, ?_, ht.part⟩
    · rw [ht.line]
      exact hli
    · rw [ht.line]
      exact hl
    · rw [ht.line]
      exact hva

end AttributeReader

/-- What reading attributes does to the tokens. -/
structure AddsAttributes (validator : Validator) (s t : Lexer) : Prop where
  rest : t.rest = s.rest
  indents : t.indents = s.indents
  ended : t.ended = s.ended
  tokens : ∃ new : List Token, (∀ a ∈ new, a.kind.isAttribute = true ∧ a.kind.Vouched validator) ∧
      t.tokens = new.reverse ++ s.tokens

namespace AddsAttributes

variable {validator : Validator} {s t u : Lexer} {r : AttributeReader}

theorem trans (h : AddsAttributes validator s t) (h' : AddsAttributes validator t u) :
    AddsAttributes validator s u where
  rest := h'.rest.trans h.rest
  indents := h'.indents.trans h.indents
  ended := h'.ended.trans h.ended
  tokens := by
    obtain ⟨new, hn, ht⟩ := h.tokens
    obtain ⟨new', hn', ht'⟩ := h'.tokens
    refine ⟨new ++ new', forall_mem_append.mpr ⟨hn, hn'⟩, ?_⟩
    rw [ht', ht, reverse_append, append_assoc]

theorem of_shifts (hr : t.rest = s.rest) (h : Shifts s t) : AddsAttributes validator s t :=
  ⟨hr, h.indents, h.ended, ⟨[], forall_mem_nil _, h.tokens⟩⟩

theorem pass (s : Lexer) (c : Char) : AddsAttributes validator s (r.pass s c).2 := by
  unfold AttributeReader.pass
  split
  · exact .of_shifts rfl ⟨rfl, rfl, rfl⟩
  · exact .of_shifts rfl ⟨rfl, rfl, rfl⟩

theorem one (hv : r.token.Vouched validator) :
    AddsAttributes validator s { s.pushAt r.token ⟨s.line, r.start⟩ with line := r.line } :=
  ⟨rfl, rfl, rfl, ⟨[⟨r.token, ⟨s.line, r.start⟩⟩], forall_mem_singleton.mpr ⟨rfl, hv⟩, rfl⟩⟩

end AddsAttributes

namespace Setting

open AttributeReader

variable {env : Setting} {depth : Nat} {r : AttributeReader} {s : Lexer} {c : Char}
  {cs : List Char} {lines skip : Nat} {inside : List Char}

theorem yields_finishAttribute (hn : r.isUnnamed = false) (cs : List Char) :
    Yields (env.finishAttribute r s)
      (fun t => t = { s.pushAt r.token ⟨s.line, r.start⟩ with line := r.line } ∧
        r.token.Vouched env.validator)
      (env.Blames (r.Placed s cs)) := by
  unfold finishAttribute
  split
  · rename_i hb
    refine .ok ⟨rfl, vouched_token fun hv => ?_⟩
    rw [hb] at hv
    cases hv
  · refine .bind (yields_requireExpression fun lines hs => ?_) fun _ ha =>
      .ok ⟨rfl, vouched_token fun _ => ha⟩
    have hv : s.line + r.value.count '\n' ≤ r.line :=
      hs.value.resolve_left (by rw [hn]; exact false_ne_true)
    have hl := hs.last
    exact ⟨hs.position.first, hs.valueStart, by dsimp only; omega⟩

theorem placed_finishAttribute (h : r.Placed s cs lines) :
    r.next.Placed { s.pushAt r.token ⟨s.line, r.start⟩ with line := r.line } cs lines := by
  have hf : 1 ≤ s.line := h.position.first
  have hli := h.line
  have hl := h.last
  have ht : (⟨s.line, r.start⟩ : Position).InLines lines :=
    ⟨h.position.first, h.position.last, h.start⟩
  refine ⟨⟨⟨?_, ?_, h.position.column⟩, forall_mem_cons.mpr ⟨ht, h.tokens⟩⟩, h.start,
    h.valueStart, Nat.le_refl _, hl, .inr (Nat.le_refl _), .inr rfl⟩
  · exact Nat.le_trans hf hli
  · exact Nat.le_trans (Nat.le_add_right _ _) hl

theorem yields_takeAttributeChar : Yields (env.takeAttributeChar r s c cs)
      (fun r' => (∃ nesting, r.part = .value nesting) ∨ r.value = [] → r.Takes s c r')
      (env.Blames (r.Placed s (c :: cs))) := by
  have hb : ∀ cause : Cause, cause.category ≠ .endOfStream →
      env.Blames (r.Placed s (c :: cs)) (env.diagnostic cause s) :=
    fun cause hc => .there hc fun lines hs => hs.position
  unfold takeAttributeChar
  split
  · rename_i quote hp
    have hn : (∃ nesting, r.part = .value nesting) ∨ r.value = [] → r.value = [] :=
      fun h => h.resolve_left fun ⟨_, h⟩ => by rw [hp] at h; cases h
    split
    · split
      · split
        · exact .ok fun h => ⟨rfl, rfl, .inl rfl, .inl (hn h), .inr (hn h)⟩
        · exact .error (hb _ nofun)
      · exact .ok fun h => ⟨rfl, rfl, .inl rfl, .inl (hn h), .inr (hn h)⟩
    · exact .ok fun h => ⟨rfl, rfl, .inl rfl, .inl (hn h), .inr (hn h)⟩
  · rename_i hp
    have hn : (∃ nesting, r.part = .value nesting) ∨ r.value = [] → r.value = [] :=
      fun h => h.resolve_left fun ⟨_, h⟩ => by rw [hp] at h; cases h
    split
    · exact .ok fun h => ⟨rfl, rfl, .inl rfl, .inl (hn h), .inr (hn h)⟩
    · split
      · exact .ok fun h => ⟨rfl, rfl, .inr rfl, .inl (hn h), .inl ⟨_, rfl⟩⟩
      · exact .ok fun h => ⟨rfl, rfl, .inl rfl, .inl (hn h), .inr (hn h)⟩
  · split
    · exact .ok fun _ => ⟨rfl, rfl, .inl rfl, .inr ⟨rfl, rfl⟩, .inl ⟨_, rfl⟩⟩
    · exact .error (hb _ nofun)

theorem placed_startValue (h : r.Placed s ('!' :: '=' :: cs) lines) (hpa : r.part = .name) :
    (r.startValue false (s.advanceColumn 1)).Placed ((s.advanceColumn 1).advanceColumn 1) cs
      lines := by
  have hl := h.last
  have hn : r.value = [] := h.part.resolve_left fun ⟨_, h⟩ => by rw [hpa] at h; cases h
  have hp := h.inLines (p := ⟨s.line, s.column + 1 + 1⟩)
    ⟨rfl, Nat.le_trans (Nat.le_add_right _ _) (Nat.le_add_right _ _)⟩
  exact ⟨⟨hp, h.tokens⟩, h.start, Nat.le_add_left _ _, h.line, hl,
    .inr (by rw [show (r.startValue false (s.advanceColumn 1)).value = [] from hn]; exact h.line),
    .inl ⟨_, rfl⟩⟩

theorem yields_readAttributes (r : AttributeReader) (s : Lexer) (cs : List Char) :
    Yields (env.readAttributes r s cs)
      (fun t => AddsAttributes env.validator s t ∧ ∀ lines, r.Placed s cs lines → t.Sited lines)
      (env.Blames (r.Placed s cs)) := by
  fun_induction env.readAttributes r s cs with
  | case1 => exact .ok ⟨.of_shifts rfl .refl, fun _ h => h.toSited⟩
  | case2 r s hn =>
    refine (yields_finishAttribute (eq_false_iff.mpr hn) []).mono ?_ fun _ h => h.mono ?_
    · rintro t ⟨rfl, hv⟩
      exact ⟨.one hv, fun lines h => (placed_finishAttribute h.mark).toSited⟩
    · exact fun lines h => h.mark
  | case3 r s c cs r' hen ih =>
    -- The character ends an attribute, which is added, and is read by a new reader.
    have hn : r'.isUnnamed = false := by
      have hen := (and_eq_true_iff.mp hen).1
      simpa using hen
    refine .bind ((yields_finishAttribute hn (c :: cs)).fitting ?_) ?_
    · exact fun lines h => h.mark
    · rintro t ⟨rfl, hv⟩
      have hp : ∀ lines, r.Placed s (c :: cs) lines → _ :=
        fun lines h => (placed_finishAttribute h.mark).pass ⟨rfl, rfl, .inl rfl, .inl rfl, .inr rfl⟩
      exact (ih _ _).mono (fun _ h => ⟨.trans (.one hv) (.trans (.pass _ c) h.1),
        fun lines hs => h.2 lines (hp lines hs)⟩) fun _ h => h.mono hp
  | case4 r s c r' hm t cs hen ih =>
    -- The marks before a value that is not escaped.
    obtain ⟨hpa, hc⟩ := and_eq_true_iff.mp hm
    obtain rfl := beq_iff_eq.mp hc
    have hp : ∀ lines, r.Placed s ('!' :: '=' :: cs) lines → _ :=
      fun lines h => placed_startValue h.mark (beq_iff_eq.mp hpa)
    have ha : AddsAttributes env.validator s (t.advanceColumn 1) := .of_shifts rfl ⟨rfl, rfl, rfl⟩
    exact ih.mono (fun _ h => ⟨ha.trans h.1, fun lines hs => h.2 lines (hp lines hs)⟩)
      fun _ h => h.mono hp
  | case5 r s c cs r' hen hm t hne =>
    -- The second mark is missing.
    refine .error (.there (by rintro ⟨⟩) fun lines h => ?_)
    exact h.inLines ⟨rfl, Nat.le_add_right _ _⟩
  | case6 r s c cs r' hen hm ih =>
    refine .bind (yields_takeAttributeChar.fitting ?_) ?_
    · exact fun lines h => h.mark
    · intro r'' ht
      have hp : ∀ lines, r.Placed s (c :: cs) lines → _ :=
        fun lines h => h.mark.pass (ht h.mark.part)
      exact (ih _ _).mono
        (fun _ h => ⟨.trans (.pass s c) h.1, fun lines hs => h.2 lines (hp lines hs)⟩)
        fun _ h => h.mono hp

/-- The lexer moves behind a bracket. -/
structure PastBracket (s : Lexer) (skip : Nat) (inside : List Char) : Prop where
  length : skip + inside.length + 2 ≤ s.rest.length
  infix_rest : inside <:+: s.rest
  count : (s.rest.take skip).count '\n' + inside.count '\n' +
    (s.rest.drop (skip + inside.length + 2)).count '\n' = s.rest.count '\n'

theorem count_closer? {opener closer : Char} (h : closer? opener = some closer) :
    [opener].count '\n' = 0 ∧ [closer].count '\n' = 0 := by
  unfold closer? at h
  split at h
  all_goals first
    | (cases h; decide)
    | cases h

theorem pastBracket (h : env.bracketed s skip = .ok inside) : PastBracket s skip inside := by
  obtain ⟨front, opener, closer, after, hr, hs, hc⟩ := bracketed_cut h
  have hl : (front ++ [opener] ++ inside ++ [closer]).length = skip + inside.length + 2 := by
    simp only [length_append, length_singleton]
    omega
  have hd : s.rest.drop (skip + inside.length + 2) = after := by
    rw [hr]
    exact drop_left' hl
  have ht : s.rest.take skip = front := by
    rw [hr]
    simp only [append_assoc]
    exact take_left' hs
  refine ⟨?_, ?_, ?_⟩
  · rw [hr, length_append, hl]
    exact Nat.le_add_right _ _
  · rw [hr]
    exact IsInfix.trans ⟨_, _, rfl⟩ (prefix_append _ _).isInfix
  · rw [hd, ht, hr]
    simp only [count_append, count_closer? hc, Nat.add_zero]

theorem PastBracket.walks {next : Lexer} (h : PastBracket s skip inside)
    (hsk : '\n' ∉ s.rest.take skip) (hr : next.rest = s.rest.drop (skip + inside.length + 2))
    (hl : next.line = s.line) (hs : Shifts s next) :
    Walks s ((next.skipOver inside).advanceColumn 1) := by
  have hl' : (next.skipOver inside).line = s.line + inside.count '\n' :=
    congrArg (· + inside.count '\n') hl
  have hc := h.count
  rw [count_eq_zero.mpr hsk, ← hr] at hc
  refine .down (hr ▸ drop_suffix _ _) ?_ ?_ (fun _ => Nat.le_add_left _ _)
    (hs.trans ⟨rfl, rfl, rfl⟩)
  · exact hl' ▸ Nat.le_add_right _ _
  · show (next.skipOver inside).line + next.rest.count '\n' + 0 = s.line + s.rest.count '\n'
    omega

theorem yields_attributes (depth : Nat) (s : Lexer) : env.Progress depth s (env.attributes s) := by
  unfold attributes
  split
  · rename_i cs hr
    have hpu : Counts s (s.push .startAttributes) := .push .refl
    refine .bind ((yields_bracketed 0).fitting hpu.placed) fun body hbo => ?_
    have hc : body.count '\n' + (s.rest.drop (body.length + 2)).count '\n' = s.rest.count '\n' := by
      have hpa := (pastBracket hbo).count
      rwa [Nat.zero_add, take_zero, count_nil, Nat.zero_add] at hpa
    have hb : body.count '\n' ≤ s.rest.count '\n' := hc ▸ Nat.le_add_right _ _
    let inside := ((s.push .startAttributes).consume (body.length + 2)).advanceColumn 1
    let r : AttributeReader :=
      { line := s.line, start := inside.column, valueStart := inside.column }
    have hp : ∀ lines, s.Placed lines → r.Placed inside body lines := by
      intro lines hs
      have hi := (hpu.trans (Walks.column 1).toCounts).placed lines hs
      have hl : s.line + s.rest.count '\n' ≤ lines := hs.last
      refine ⟨⟨hi.position, hi.tokens⟩, hi.position.column,
        hi.position.column, Nat.le_refl _, ?_, .inr (Nat.le_refl _), .inr rfl⟩
      exact Nat.le_trans (Nat.add_le_add_left hb _) hl
    refine .bind ((yields_readAttributes r inside body).fitting hp) ?_
    rintro after ⟨had, hsi⟩
    have hr' : after.rest = s.rest.drop (body.length + 2) := had.rest
    have hl : { after with line := s.line + body.count '\n' }.lastLine = s.lastLine := by
      show s.line + body.count '\n' + after.rest.count '\n' = s.line + s.rest.count '\n'
      rw [hr', Nat.add_assoc, hc]
    have haf : Counts s { after with line := s.line + body.count '\n' } := by
      refine ⟨⟨hr' ▸ drop_suffix _ _, fun lines hs => ?_⟩, fun _ => hl⟩
      have hsi := hsi lines (hp lines hs)
      refine ⟨⟨⟨?_, ?_, hsi.position.column⟩, hsi.tokens⟩, hl ▸ hs.last⟩
      · exact Nat.le_trans hs.position.first (Nat.le_add_right _ _)
      · exact Nat.le_trans (Nat.add_le_add_left hb _) hs.last
    obtain ⟨new, hn, ht⟩ := had.tokens
    let first : Token := ⟨.startAttributes, s.position⟩
    let last : Token := ⟨.endAttributes, ⟨s.line + body.count '\n', after.column⟩⟩
    have his : Issued env.validator depth (first :: (new ++ [last])) :=
      .enclose (.attributes (fun a ha => (hn a ha).1) rfl rfl) (fun a ha => (hn a ha).2)
        (.of_none ⟨rfl, rfl⟩) (.of_none ⟨rfl, rfl⟩)
    have hd : ∀ a ∈ new.reverse, a.kind ≠ .dot := by
      intro a ha hdo
      have hatt := (hn a (mem_reverse.mp ha)).1
      rw [hdo] at hatt
      exact absurd hatt false_ne_true
    refine .ok (.read ⟨haf.push.trans (Walks.column 1).toCounts, ?_⟩ ?_)
    · exact .enclose had.indents (.inl had.ended) his (congrArg (last :: ·) ht)
        (fun h => h.append hd) ⟨nofun, rfl⟩ nofun
    · exact hr' ▸ length_drop_lt (by simp [hr]) (Nat.succ_pos _)
  · exact .ok .refl

end Setting
end PugTemplate
