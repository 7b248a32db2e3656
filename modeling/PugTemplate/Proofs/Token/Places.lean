import PugTemplate.Proofs.Token.Fitting
import PugTemplate.Proofs.Token.Moves
/-!
# Places of the lexer

The lexer counts lines and columns while it drops characters from the text. It may count less than
it drops, but never more: its line, and as many lines as there are breaks in the text that is left,
stay inside of the template. So every token and every diagnostic has a place in the template. Most
rules count as many lines as they drop line breaks.
-/

namespace PugTemplate

open List

/-! ## Places -/

/-- A place in a text that has so many lines. -/
structure Position.InLines (p : Position) (lines : Nat) : Prop where
  first : 1 ≤ p.line
  last : p.line ≤ lines
  column : 1 ≤ p.column

/-- The lexer is in a text that has so many lines, and so are its tokens. -/
structure Lexer.Sited (s : Lexer) (lines : Nat) : Prop where
  position : s.position.InLines lines
  tokens : ∀ t ∈ s.tokens, t.position.InLines lines

/-- The line of the lexer, once it has dropped all text that is left and counted its breaks. -/
def Lexer.lastLine (s : Lexer) : Nat := s.line + s.rest.count '\n'

/-- The text that is left has its place there too. -/
structure Lexer.Placed (s : Lexer) (lines : Nat) : Prop extends s.Sited lines where
  last : s.lastLine ≤ lines

/-- A place on the line of the lexer, and not before the lexer. -/
structure Lexer.Faces (s : Lexer) (p : Position) : Prop where
  line : p.line = s.line
  column : s.column ≤ p.column

theorem Lexer.Faces.self (s : Lexer) : s.Faces s.position := ⟨rfl, Nat.le_refl _⟩

variable {p : Position} {s t : Lexer} {text cs : List Char} {n : Nat} {env : Setting}

theorem Lexer.Sited.inLines {lines : Nat} (h : s.Sited lines) (hp : s.Faces p) :
    p.InLines lines where
  first := hp.line ▸ h.position.first
  last := hp.line ▸ h.position.last
  column := Nat.le_trans h.position.column hp.column

/-- The lexer reads on, and stays where it can be. -/
structure Proceeds (s t : Lexer) : Prop where
  rest : t.rest <:+ s.rest
  placed : ∀ lines, s.Placed lines → t.Placed lines

namespace Proceeds

variable {s t u : Lexer}

theorem refl : Proceeds s s := ⟨suffix_refl _, fun _ h => h⟩

theorem trans (h : Proceeds s t) (h' : Proceeds t u) : Proceeds s u :=
  ⟨h'.rest.trans h.rest, fun lines hs => h'.placed lines (h.placed lines hs)⟩

theorem sited (h : Proceeds s t) (lines : Nat) (hs : s.Placed lines) : t.Sited lines :=
  (h.placed lines hs).toSited

end Proceeds

/-- **The lexer counts the line breaks that it drops**, but for so many that are lost. At the end of
the text it need not. -/
structure Counts (s t : Lexer) (lost : Nat := 0) : Prop extends Proceeds s t where
  lines : t.rest ≠ [] → t.lastLine + lost = s.lastLine

namespace Counts

variable {s t u : Lexer} {lost : Nat} {kind : TokenKind} {p : Position}

theorem refl : Counts s s := ⟨.refl, fun _ => rfl⟩

theorem trans (h : Counts s t lost) (h' : Counts t u) : Counts s u lost := by
  refine ⟨h.toProceeds.trans h'.toProceeds, fun hu => ?_⟩
  have ht : t.rest ≠ [] := fun hn => hu (suffix_nil.mp (hn ▸ h'.rest))
  rw [← h.lines ht, ← h'.lines hu]
  rfl

theorem onLine (hr : Pattern.SameLine t.rest s.rest) (hli : t.line = s.line)
    (hsi : ∀ lines, s.Placed lines → t.Sited lines) : Counts s t := by
  have hl : t.lastLine = s.lastLine := by
    obtain ⟨front, hb, hc⟩ := hr
    unfold Lexer.lastLine
    rw [hc, hli, count_append, count_eq_zero.mpr hb, Nat.zero_add]
  exact ⟨⟨hr.suffix, fun lines hs => ⟨hsi lines hs, hl ▸ hs.last⟩⟩, fun _ => hl⟩

theorem pushAt (h : Counts s t lost) (hp : ∀ lines, s.Placed lines → p.InLines lines) :
    Counts s (t.pushAt kind p) lost where
  rest := h.rest
  placed lines hs :=
    { h.placed lines hs with
      tokens := forall_mem_cons.mpr ⟨hp lines hs, (h.placed lines hs).tokens⟩ }
  lines := h.lines

theorem pushFaced (h : Counts s t lost) (hp : s.Faces p) : Counts s (t.pushAt kind p) lost :=
  h.pushAt fun _ hs => hs.inLines hp

theorem push (h : Counts s t lost) : Counts s (t.push kind) lost :=
  h.pushAt fun lines hs => (h.placed lines hs).inLines (.self t)

end Counts

/-- The lexer reads on without adding a token. -/
structure Walks (s t : Lexer) (lost : Nat := 0) : Prop extends Counts s t lost, Shifts s t

namespace Walks

variable {s t u : Lexer} {lost : Nat}

theorem trans (h : Walks s t lost) (h' : Walks t u) : Walks s u lost :=
  ⟨h.toCounts.trans h'.toCounts, h.toShifts.trans h'.toShifts⟩

theorem down (hr : t.rest <:+ s.rest) (hli : s.line ≤ t.line)
    (hl : t.lastLine + lost = s.lastLine) (hc : 1 ≤ s.column → 1 ≤ t.column)
    (hs : Shifts s t) : Walks s t lost := by
  refine ⟨⟨⟨hr, fun lines h => ?_⟩, fun _ => hl⟩, hs⟩
  have hl' : t.lastLine ≤ lines := Nat.le_trans (hl ▸ Nat.le_add_right _ _) h.last
  refine ⟨⟨⟨?_, ?_, ?_⟩, hs.tokens ▸ h.tokens⟩, hl'⟩
  · exact Nat.le_trans h.position.first hli
  · exact Nat.le_trans (Nat.le_add_right _ _) hl'
  · exact hc h.position.column

theorem along (hr : Pattern.SameLine t.rest s.rest) (hl : t.line = s.line)
    (hc : s.column ≤ t.column) (hsh : Shifts s t) : Walks s t :=
  ⟨.onLine hr hl fun _ hs =>
    ⟨hs.inLines ⟨hl, hc⟩, hsh.tokens ▸ hs.tokens⟩, hsh⟩

theorem consume {n : Nat} (h : Pattern.SameLine (s.rest.drop n) s.rest) (m : Nat) :
    Walks s ((s.consume n).advanceColumn m) :=
  along h rfl (Nat.le_add_right _ _) ⟨rfl, rfl, rfl⟩

theorem column (n : Nat) : Walks s (s.advanceColumn n) :=
  along (.refl _) rfl (Nat.le_add_right _ _) ⟨rfl, rfl, rfl⟩

end Walks

theorem Lexer.column_skipOver (text : List Char) (h : 1 ≤ s.column) :
    1 ≤ (s.skipOver text).column := by
  unfold skipOver advanceLine advanceColumn
  dsimp only
  split <;> omega

theorem Lexer.skipOver_onLine (s : Lexer) (h : '\n' ∉ text) :
    s.skipOver text = s.advanceColumn text.length := by
  have ha : ∀ c ∈ text.reverse, Pattern.isOnLine c := by
    intro c hc
    simp only [Pattern.isOnLine, bne_iff_ne]
    rintro rfl
    exact h (mem_reverse.mp hc)
  unfold skipOver
  dsimp only
  rw [count_eq_zero.mpr h, takeWhile_eq_self_iff.mpr ha, length_reverse]
  rfl

theorem Walks.skipOver (hr : s.rest = text ++ t.rest) (hl : t.line = s.line)
    (hc : s.column ≤ t.column) (hs : Shifts s t) : Walks s (t.skipOver text) := by
  refine .down ⟨text, hr.symm⟩ ?_ ?_ (fun h => ?_) (hs.trans ⟨rfl, rfl, rfl⟩)
  · exact hl ▸ Nat.le_add_right _ _
  · show t.line + text.count '\n' + t.rest.count '\n' + 0 = s.line + s.rest.count '\n'
    rw [hl, hr, count_append, Nat.add_zero, Nat.add_assoc]
  · exact t.column_skipOver text (Nat.le_trans h hc)

theorem Walks.over (n : Nat) :
    Walks s ((s.consume (s.rest.take n).length).skipOver (s.rest.take n)) :=
  .skipOver (prefix_iff_eq_append.mp ( take_prefix n s.rest)).symm rfl (Nat.le_refl _)
    ⟨rfl, rfl, rfl⟩

/-- The lexer reads on, and adds tokens as a rule may do. -/
structure Goes (env : Setting) (depth : Nat) (s t : Lexer) (lost : Nat := 0) : Prop extends
    Counts s t lost, Moves env depth s t

section Goes

variable {env : Setting} {depth : Nat} {s t u : Lexer} {lost : Nat}

theorem Goes.refl : Goes env depth s s := ⟨.refl, .refl⟩

theorem Goes.trans (h : Goes env depth s t lost) (h' : Goes env depth t u) :
    Goes env depth s u lost :=
  ⟨h.toCounts.trans h'.toCounts, h.toMoves.trans h'.toMoves⟩

theorem Walks.goes (h : Walks s t lost) (hl : AtLineEnd s.rest → AtLineEnd t.rest) :
    Goes env depth s t lost :=
  ⟨h.toCounts, .of_shifts h.toShifts hl⟩

theorem Goes.interpolating (h : Goes env depth s t) (interpolating : Bool) :
    Goes env depth s { t with interpolating } :=
  h.trans (Walks.goes (.along (.refl _) rfl (Nat.le_refl _) ⟨rfl, rfl, rfl⟩) id)

theorem Walks.push {kind : TokenKind} {p : Position} (h : Walks s t lost) (hp : s.Faces p)
    (hk : kind.isWord)
    (hv : kind.Vouched env.validator) :
    Goes env depth s (t.pushAt kind p) lost :=
  ⟨h.pushFaced hp, .push h.toShifts hk hv⟩

end Goes

/-- What any rule does. If it has read something, then there is less to read, or nothing more is to
be read. Otherwise it has dropped nothing. -/
structure Advances (s : Lexer) (out : Bool × Lexer) (lost : Nat := 0) : Prop extends
    Counts s out.2 lost where
  shorter : out.1 = true → out.2.ended = true ∨ out.2.rest.length < s.rest.length
  declined : out.1 = false → out.2.rest = s.rest

namespace Advances

variable {s t : Lexer} {lost : Nat}

theorem unread (h : Counts s t) (hr : t.rest = s.rest) : Advances s (false, t) :=
  ⟨h, nofun, fun _ => hr⟩

theorem read (h : Counts s t lost) (hr : t.rest.length < s.rest.length) :
    Advances s (true, t) lost :=
  ⟨h, fun _ => .inr hr, nofun⟩

theorem finish (h : Counts s t) (hen : t.ended) : Advances s (true, t) :=
  ⟨h, fun _ => .inl hen, nofun⟩

theorem after {out : Bool × Lexer} (h : Advances s (false, t)) (h' : Advances t out lost) :
    Advances s out lost := by
  have hr : t.rest = s.rest := h.declined rfl
  refine ⟨⟨h.toProceeds.trans h'.toProceeds, fun hu => ?_⟩, hr ▸ h'.shorter, hr ▸ h'.declined⟩
  have ht : t.rest ≠ [] := fun hn => hu (suffix_nil.mp (hn ▸ h'.rest))
  exact (h'.lines hu).trans (h.lines ht)

end Advances

/-- **What a rule does** that neither indents nor ends the template. -/
structure Passes (env : Setting) (depth : Nat) (s : Lexer) (out : Bool × Lexer)
    (lost : Nat := 0) : Prop extends Advances s out lost, Moves env depth s out.2

namespace Passes

variable {env : Setting} {depth : Nat} {s t u : Lexer} {lost : Nat}

theorem goes {out : Bool × Lexer} (h : Passes env depth s out lost) : Goes env depth s out.2 lost :=
  ⟨h.toCounts, h.toMoves⟩

theorem refl : Passes env depth s (false, s) := ⟨.unread .refl rfl, .refl⟩

theorem read (h : Goes env depth s t lost) (hr : t.rest.length < s.rest.length) :
    Passes env depth s (true, t) lost :=
  ⟨.read h.toCounts hr, h.toMoves⟩

theorem finish (h : Goes env depth s t) (hen : t.ended) : Passes env depth s (true, t) :=
  ⟨.finish h.toCounts hen, h.toMoves⟩

theorem trans (h : Goes env depth s t lost) (hr : t.rest.length < s.rest.length)
    (h' : Goes env depth t u) : Passes env depth s (true, u) lost :=
  read (h.trans h') (Nat.lt_of_le_of_lt h'.rest.length_le hr)

end Passes

theorem Pattern.SameLine.drop_line (cs : List Char) :
    Pattern.SameLine (cs.drop (Pattern.line cs).length) cs :=
  .drop ( takeWhile_prefix _) (Setting.not_mem_line cs)

theorem sameLine_marked {mark : Char} {rest name : List Char} (hm : '\n' ≠ mark)
    (hr : rest = mark :: cs) (hh : name <+: cs) (hb : '\n' ∉ name) :
    Pattern.SameLine (rest.drop (name.length + 1)) rest := by
  rw [hr]
  exact (Pattern.SameLine.drop hh hb).trans (.cons hm cs)

theorem length_drop_lt (hc : cs ≠ []) (hn : 0 < n) : (cs.drop n).length < cs.length := by
  have hl := length_pos_iff.mpr hc
  rw [length_drop]
  omega

theorem Passes.token {depth : Nat} {kind : TokenKind} (m : Nat)
    (hsa : Pattern.SameLine (s.rest.drop n) s.rest) (hn : 0 < n) (hs : s.rest ≠ [])
    (hp : s.Faces p) (hk : kind.isWord) (hv : kind.Vouched env.validator) :
    Passes env depth s (true, ((s.consume n).advanceColumn m).pushAt kind p) :=
  .read (Walks.push (.consume hsa m) hp hk hv) (length_drop_lt hs hn)

/-! ## Diagnostics -/

/-- The faults that a validator finds are inside of the text. -/
def Validator.StaysInside (validator : Validator) : Prop :=
  ∀ source fault, validator source = some fault →
    fault.line < (Text.splitLines source.toList).length

theorem length_splitLines (cs : List Char) : (Text.splitLines cs).length = cs.count '\n' + 1 := by
  fun_induction Text.splitLines cs with
  | case1 => rfl
  | case2 cs ih => rw [length_cons, ih, count_cons_self]
  | case3 c cs hc hs ih =>
    rw [hs] at ih
    cases ih
  | case4 c cs hc line rest hs ih =>
    rw [hs] at ih
    rw [count_cons_of_ne hc]
    exact ih

/-- **A diagnostic of a lexer**: it names the file, and its place is in the template, if the lexer
is in a text that has so many lines. -/
structure Setting.Blames (env : Setting) (fits : Nat → Prop) (d : Diagnostic) : Prop where
  file : d.file = env.file
  category : d.category ≠ .endOfStream
  position : env.validator.StaysInside → ∀ lines, fits lines → d.position.InLines lines

section Blames

variable {env : Setting} {fits fits' : Nat → Prop}

theorem Setting.Blames.mono {d : Diagnostic} (h : ∀ lines, fits lines → fits' lines)
    (hd : env.Blames fits' d) : env.Blames fits d :=
  { hd with position := fun hv lines hs => hd.position hv lines (h lines hs) }

theorem Yields.fitting {α : Type} {x : Except Diagnostic α} {P : α → Prop}
    (hx : Yields x P (env.Blames fits')) (h : ∀ lines, fits lines → fits' lines) :
    Yields x P (env.Blames fits) :=
  hx.mono (fun _ ha => ha) fun _ hd => hd.mono h

end Blames

/-- **The progress of a rule**: it passes on, or blames the template. -/
abbrev Setting.Progress (env : Setting) (depth : Nat) (s : Lexer) (step : Step) : Prop :=
  Yields step (Passes env depth s) (env.Blames s.Placed)

namespace Setting

variable {env : Setting} {s t : Lexer} {cause : Cause} {p : Position} {fits : Nat → Prop}

theorem Blames.of_eq {env' : Setting} {d : Diagnostic} (hd : env.Blames fits d)
    (hf : env'.file = env.file) (hv : env'.validator = env.validator) :
    env'.Blames fits d :=
  ⟨hd.file.trans hf.symm, hd.category, fun hi => hd.position (hv ▸ hi)⟩

theorem Blames.there (hc : cause.category ≠ .endOfStream)
    (hp : ∀ lines, fits lines → p.InLines lines) : env.Blames fits (env.diagnosticAt cause p) :=
  ⟨rfl, hc, fun _ => hp⟩

theorem Blames.here (hc : cause.category ≠ .endOfStream) :
    env.Blames s.Placed (env.diagnostic cause s) :=
  .there hc fun _ hs => hs.position

theorem Blames.ahead (hc : cause.category ≠ .endOfStream) {lost : Nat} (h : Counts s t lost) :
    env.Blames s.Placed (env.diagnostic cause t) :=
  .mono h.placed (.here hc)

theorem blames_scanDiagnostic (fault : Nesting.Fault) (h : Counts s t) :
    env.Blames s.Placed (env.scanDiagnostic fault t) := by
  cases fault with
  | mismatched found before | unfinished before => exact .ahead nofun h

/-! ## Shared readers -/

theorem yields_requireExpression {source : List Char}
    (hp : ∀ lines, fits lines → 1 ≤ p.line ∧ 1 ≤ p.column ∧ p.line + source.count '\n' ≤ lines) :
    Yields (env.requireExpression source p)
      (fun _ => env.validator.accepts (String.ofList source) = true) (env.Blames fits) := by
  unfold requireExpression
  split
  · rename_i hn
    exact .ok (by rw [Validator.accepts, hn]; rfl)
  · rename_i fault hf
    refine .error ⟨rfl, nofun, fun hv lines hs => ?_⟩
    obtain ⟨hl, hc, hla⟩ := hp lines hs
    have hi := hv _ fault hf
    rw [length_splitLines, String.toList_ofList] at hi
    unfold diagnosticAt
    split
    · refine ⟨hl, ?_, ?_⟩ <;> dsimp only <;> omega
    · refine ⟨?_, ?_, ?_⟩ <;> dsimp only <;> omega

theorem yields_requireExpression_part {source : List Char} (hp : s.Faces p)
    (hso : source <:+: s.rest) :
    Yields (env.requireExpression source p)
      (fun _ => env.validator.accepts (String.ofList source) = true) (env.Blames s.Placed) := by
  refine yields_requireExpression fun lines hs => ?_
  have hc := hso.sublist.count_le '\n'
  have hl : s.line + s.rest.count '\n' ≤ lines := hs.last
  exact ⟨(hs.inLines hp).first, (hs.inLines hp).column, by rw [hp.line]; omega⟩

theorem yields_bracketed (skip : Nat) :
    Yields (env.bracketed s skip) (fun inside => env.bracketed s skip = .ok inside)
      (env.Blames s.Placed) := by
  unfold bracketed
  split
  · exact .error (.here nofun)
  · split
    · exact .ok rfl
    · rename_i closer _ found before hsc
      refine .error ⟨rfl, nofun, fun _ lines hs => ?_⟩
      obtain ⟨after, ha⟩ := Nesting.before_prefix hsc
      have hr : s.rest = (s.rest.take (skip + 1) ++ before) ++ after := by
        rw [append_assoc, show before ++ after = s.rest.drop (skip + 1) from ha, take_append_drop]
      have hsk : Walks s ({ s with rest := after }.skipOver _) :=
        .skipOver hr rfl (Nat.le_refl _) ⟨rfl, rfl, rfl⟩
      exact (hsk.placed lines hs).position
    · exact .error (.ahead nofun (Walks.column _).toCounts)

end Setting

/-! ## Text -/

/-- The lexer moves along its line, and the text that is left is the same. -/
structure Stays (s t : Lexer) : Prop where
  rest : t.rest = s.rest
  line : t.line = s.line
  sited : ∀ lines, s.Sited lines → t.Sited lines

namespace Stays

variable {s t u : Lexer}

theorem refl : Stays s s := ⟨rfl, rfl, fun _ h => h⟩

theorem trans (h : Stays s t) (h' : Stays t u) : Stays s u :=
  ⟨h'.rest.trans h.rest, h'.line.trans h.line, fun lines hs => h'.sited lines (h.sited lines hs)⟩

theorem advanceColumn (h : Stays s t) (n : Nat) : Stays s (t.advanceColumn n) := by
  refine h.trans ⟨rfl, rfl, fun lines ht => ⟨?_, ht.tokens⟩⟩
  exact ht.inLines ⟨rfl, Nat.le_add_right _ _⟩

theorem pushAt (h : Stays s t) (kind : TokenKind) {p : Position} (hp : s.Faces p) :
    Stays s (t.pushAt kind p) where
  rest := h.rest
  line := h.line
  sited lines hs :=
    ⟨(h.sited lines hs).position, forall_mem_cons.mpr ⟨hs.inLines hp, (h.sited lines hs).tokens⟩⟩

theorem push (h : Stays s t) (kind : TokenKind) : Stays s (t.push kind) :=
  h.trans (refl.pushAt kind (.self t))

theorem counts (h : Stays s t) : Counts s t :=
  .onLine (h.rest ▸ .refl _) h.line fun lines hs => h.sited lines hs.toSited

end Stays

/-- A part of a text is added, and the lexer stays on its line. -/
structure Takes (env : Setting) (depth : Nat) (s t : Lexer) : Prop extends
    Stays s t, Adds env depth s t

namespace Takes

variable {env : Setting} {depth : Nat} {s t u : Lexer}

theorem trans (h : Takes env depth s t) (h' : Takes env depth t u) : Takes env depth s u :=
  ⟨h.toStays.trans h'.toStays, h.toAdds.trans h'.toAdds⟩

theorem of_shifts (h : Stays s t) (hs : Shifts s t) : Takes env depth s t :=
  ⟨h, .of_shifts hs⟩

theorem pushText (s : Lexer) (form : TextForm) (text : List Char) (n : Nat) :
    Takes env depth s ((s.pushText form text).advanceColumn n) := by
  refine ⟨((Stays.refl.push _).advanceColumn _).advanceColumn _, .trans (.push .refl ?_ ?_)
    (.of_shifts ⟨rfl, rfl, rfl⟩)⟩
  · cases form <;> exact ⟨rfl, nofun⟩
  · cases form <;> exact .of_none ⟨rfl, rfl⟩

theorem pushSomeText (s : Lexer) (form : TextForm) (text : List Char) :
    Takes env depth s (s.pushSomeText form text) := by
  unfold Lexer.pushSomeText
  split
  · exact .of_shifts .refl .refl
  · exact .pushText s form text 0

end Takes

/-- What reading a text does that has been cut off from the rest: the text is read to its end, or
the interpolation ends in it. -/
structure Gains (env : Setting) (depth : Nat) (text : List Char) (s t : Lexer) : Prop extends
    Adds env depth s t where
  rest : t.rest = s.rest ∨ env.interpolated = true ∧ t.ended = true ∧
    ∃ after, after <:+ text ∧ t.rest = after ++ s.rest
  line : t.line = s.line
  sited : ∀ lines, s.Sited lines → t.Sited lines

namespace Gains

variable {env : Setting} {depth : Nat} {text after : List Char} {s t u : Lexer}

theorem of_takes (h : Takes env depth s t) : Gains env depth text s t :=
  ⟨h.toAdds, .inl h.rest, h.line, h.sited⟩

theorem trans (h : Takes env depth s t) (h' : Gains env depth after t u) (ha : after <:+ text) :
    Gains env depth text s u where
  toAdds := h.toAdds.trans h'.toAdds
  rest := by
    rw [← h.rest]
    exact h'.rest.imp_right fun ⟨hi, hen, left, hl, hr⟩ =>
      ⟨hi, hen, left, hl.trans ha, hr⟩
  line := h'.line.trans h.line
  sited lines hs := h'.sited lines (h.sited lines hs)

end Gains

/-- A text inside of a tag interpolation has no line breaks. -/
def Setting.Fits (env : Setting) (s : Lexer) : Prop := env.interpolated = true → '\n' ∉ s.rest

theorem Setting.Fits.next (hs : env.Fits s) (h : t.rest <:+ s.rest) : env.Fits t :=
  fun hi hb => hs hi (h.subset hb)

/-- What the lexer for the inside of a tag interpolation does. -/
structure Inside (validator : Validator) (depth : Nat) (s t : Lexer) : Prop extends
    Proceeds s t where
  tokens : ∃ new, Issued validator depth new ∧ t.tokens = new.reverse ++ s.tokens
  dotted : Dotted s → Dotted t

/-- Tag interpolations may be nested to a depth, and their lexers keep the rules there, in a text
without line breaks. -/
def Setting.Delegates (env : Setting) (depth : Nat) : Prop :=
  ∀ read, env.nested = some read → ∃ below, depth = below + 1 ∧ ∀ s : Lexer, '\n' ∉ s.rest →
    Yields (read s) (Inside env.validator below s) (env.Blames s.Placed)

namespace Setting

variable {env : Setting} {depth : Nat} {cause : Cause} {s t : Lexer} {body text : List Char}
  {inside : Lexer}

theorem Blames.along (hc : cause.category ≠ .endOfStream) (h : Stays s t) :
    env.Blames s.Sited (env.diagnostic cause t) :=
  .there hc fun lines hs => (h.sited lines hs).position

theorem yields_addCode (depth : Nat) (escape : Bool) (hbo : '\n' ∉ body) (s : Lexer) :
    Yields (env.addCode escape body s) (fun r => r.1 <:+ body ∧ Takes env depth s r.2)
      (env.Blames s.Sited) := by
  have hi : Stays s (s.advanceColumn 2) := Stays.refl.advanceColumn 2
  unfold addCode
  split
  · rename_i source after hsc
    obtain ⟨rest, rfl, hr⟩ := Nesting.scanUntilChar_cut hsc
    have hc : source.count '\n' = 0 := by
      refine count_eq_zero.mpr fun hb => hbo ?_
      rw [hr]
      exact mem_append_left _ hb
    have hex : Yields (env.requireExpression source (s.advanceColumn 2).position)
        (fun _ => env.validator.accepts (String.ofList source) = true) (env.Blames s.Sited) := by
      refine yields_requireExpression fun lines hs => ?_
      rw [hc]
      have hp := (hi.sited lines hs).position
      exact ⟨hp.first, hp.column, hp.last⟩
    refine .bind hex fun _ _ => .ok ⟨?_, ?_⟩
    · exact ⟨source ++ ['}'], by rw [hr]; simp⟩
    · obtain ⟨state, hst, hsta⟩ := Nesting.scan_of_scanUntilChar hsc
      have ha : Adds env depth s ((s.advanceColumn 2).pushAt
          (.interpolatedCode (String.ofList source) escape true) s.position) :=
        .push ⟨rfl, rfl, rfl⟩ ⟨rfl, nofun⟩ (.of_enclosed ⟨rfl, rfl⟩ hst hsta)
      exact ⟨(hi.pushAt _ (.self s)).advanceColumn _, ha.trans (.of_shifts ⟨rfl, rfl, rfl⟩)⟩
  · exact .error (.along nofun .refl)
  · exact .error (.along nofun (hi.advanceColumn _))

theorem placed_inner {lines : Nat} (hb : '\n' ∉ body) (hs : s.Sited lines) :
    (s.inner body).Placed lines := by
  refine ⟨⟨hs.position, nofun⟩, ?_⟩
  unfold Lexer.lastLine
  rw [show (s.inner body).rest.count '\n' = 0 from count_eq_zero.mpr hb]
  exact hs.position.last

theorem stays_afterInner (hb : '\n' ∉ body) (h : Proceeds (s.inner body) inside) :
    Stays s (s.afterInner inside) := by
  have ht : Stays s { s with tokens := inside.tokens ++ s.tokens, column := inside.column } := by
    refine ⟨rfl, rfl, fun lines hs => ?_⟩
    have hi := h.placed lines (placed_inner hb hs)
    refine ⟨⟨hs.position.first, hs.position.last, hi.position.column⟩, ?_⟩
    exact forall_mem_append.mpr ⟨hi.tokens, hs.tokens⟩
  exact (ht.push _).advanceColumn 1

theorem adds_afterInner {below : Nat} {p : Position}
    (ht : t.tokens = ⟨.startInterpolation, p⟩ :: s.tokens) (hi : t.indents = s.indents)
    (hen : t.ended = s.ended) (h : Inside env.validator below (t.inner body) inside) :
    Adds env (below + 1) s (t.afterInner inside) := by
  obtain ⟨new, hn, hto⟩ := h.tokens
  rw [show (t.inner body).tokens = [] from rfl] at hto
  let first : Token := ⟨.startInterpolation, p⟩
  let last : Token := ⟨.endInterpolation, ⟨t.line, inside.column⟩⟩
  have his : Issued env.validator (below + 1) (first :: (new ++ [last])) :=
    .enclose (.interpolation hn.toFlat rfl rfl) hn.vouched (.of_none ⟨rfl, rfl⟩)
      (.of_none ⟨rfl, rfl⟩)
  have ha : (t.afterInner inside).tokens = last :: (inside.tokens ++ first :: s.tokens) :=
    congrArg (fun ts => last :: (inside.tokens ++ ts)) ht
  refine ⟨⟨hi, .inl hen, ⟨_, his, by simp [ha, hto]⟩⟩, fun hs => ?_⟩
  have hf : Undotted (first :: s.tokens) := hs.push nofun
  have hin : DotsEnd inside.tokens := (h.dotted ⟨.nil, nofun⟩).dotsEnd
  rw [ha]
  refine DotsEnd.push (hin.append hf.dotsEnd ?_) nofun rfl
  intro u _ t ht hd
  cases ht
  cases hd

theorem yields_addTag (hn : env.Delegates depth) (hb : '\n' ∉ body) (s : Lexer) :
    Yields (env.addTag body s) (fun r => r.1 <:+ body ∧ Takes env depth s r.2)
      (env.Blames s.Sited) := by
  have hst : Stays s ((s.push .startInterpolation).advanceColumn 2) :=
    (Stays.refl.push _).advanceColumn 2
  unfold addTag
  split
  · exact .error (.along nofun hst)
  · rename_i read hr
    obtain ⟨below, rfl, hi⟩ := hn read hr
    let t := (s.push .startInterpolation).advanceColumn 2
    have hin : ∀ lines, s.Sited lines → (t.inner body).Placed lines :=
      fun lines hs => placed_inner hb (hst.sited lines hs)
    refine .bind ((hi (t.inner body) hb).fitting hin) fun inside h => .ok ⟨h.rest, ?_⟩
    exact ⟨hst.trans (stays_afterInner hb h.toProceeds), adds_afterInner rfl rfl rfl h⟩

theorem yields_addTextSteps (hn : env.Delegates depth) (form : TextForm) (n : Nat)
    (front : List Char) (shifted : Bool) (hte : '\n' ∉ text) (s : Lexer) :
    Yields (env.addTextSteps form n front shifted text s) (Gains env depth text s)
      (env.Blames s.Sited) := by
  induction n generalizing front shifted text s with
  | zero => exact .ok (.of_takes (.pushSomeText s form _))
  | succ n ih =>
    unfold addTextSteps
    split
    · exact .ok (.of_takes (.pushSomeText s form _))
    all_goals
      rename_i hm
      have ha : _ <:+ text := ⟨_, (nextMarker_cut hm).1.symm⟩
      have hb := fun h => hte (ha.subset h)
    · exact (ih _ _ hb s).mono (fun _ h => .trans (.of_shifts .refl .refl) h ha) fun _ h => h
    · exact (ih _ _ hb s).mono (fun _ h => .trans (.of_shifts .refl .refl) h ha) fun _ h => h
    · rename_i before after
      have hp : Takes env depth s _ := .pushSomeText s form (front ++ before)
      have hc := (nextMarker_cut hm).2 rfl
      have had : Adds env depth (s.pushSomeText form (front ++ before))
          ((s.pushSomeText form (front ++ before)).close after) :=
        ⟨⟨rfl, .inr hc, ⟨[], .nil, rfl⟩⟩, id⟩
      refine .ok ⟨hp.toAdds.trans had, .inr ⟨hc, rfl, after, ha, ?_⟩, hp.line, ?_⟩
      · rw [← hp.rest]
        rfl
      · intro lines hs
        exact ⟨(hp.sited lines hs).position, (hp.sited lines hs).tokens⟩
    · rename_i before after
      have hp : Takes env depth s ((s.pushText form (front ++ before)).advanceColumn
          (if shifted then 1 else 0)) := .pushText s form _ _
      refine .bind ((yields_addTag hn hb _).fitting hp.sited) fun r ⟨hsu, hr⟩ => ?_
      have hsu := hsu.trans ha
      have ht := hp.trans hr
      exact (ih _ _ (fun h => hte (hsu.subset h)) r.2).mono
        (fun _ h => .trans ht h hsu) fun _ h => h.mono ht.sited
    · rename_i before escape after
      have hp : Takes env depth s _ := .pushSomeText s form (front ++ before)
      refine .bind ((yields_addCode depth escape hb _).fitting hp.sited) fun r ⟨hsu, hr⟩ => ?_
      have hsu := hsu.trans ha
      have ht := hp.trans hr
      exact (ih _ _ (fun h => hte (hsu.subset h)) r.2).mono
        (fun _ h => .trans ht h hsu) fun _ h => h.mono ht.sited

theorem yields_addText (hn : env.Delegates depth) (form : TextForm) (ht : '\n' ∉ text)
    (s : Lexer) : Yields (env.addText form text s) (Gains env depth text s) (env.Blames s.Sited) :=
  yields_addTextSteps hn form _ _ _ ht s

end Setting
end PugTemplate
