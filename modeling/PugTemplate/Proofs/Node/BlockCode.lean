import PugTemplate.Proofs.Node.Derivation
import PugTemplate.Proofs.Node.Outline
import PugTemplate.Proofs.Token.Interpolations
/-!
# Blocks of code

The lines below a dash are code. What all of them are indented by is no part of it, wherever the line
with the least indentation stands.
-/

namespace PugTemplate

open List Pattern Text

/-! ## Indentation -/

def leadingSpaces (line : List Char) : Nat := (line.takeWhile (· == ' ')).length

/-- Lines of a block of code: the first one is not blank, a blank one has nothing but spaces, and
every other one starts with a space. -/
structure IsBlockOfCode (lines : List (List Char)) : Prop where
  first : ∃ line ∈ lines.head?, Text.isBlankText line = false
  plain : ∀ line ∈ lines, '\n' ∉ line ∧ '\r' ∉ line
  blank : ∀ line ∈ lines, Text.isBlankText line = true → ∀ c ∈ line, c = ' '
  indented : ∀ line ∈ lines, Text.isBlankText line = false → 0 < leadingSpaces line

/-- The least indentation of the lines that are not blank. -/
structure IsLeastIndent (lines : List (List Char)) (w : Nat) : Prop where
  attained : ∃ line ∈ lines, Text.isBlankText line = false ∧ leadingSpaces line = w
  least : ∀ line ∈ lines, Text.isBlankText line = false → w ≤ leadingSpaces line

theorem IsLeastIndent.unique {lines : List (List Char)} {w v : Nat} (hw : IsLeastIndent lines w)
    (hv : IsLeastIndent lines v) : w = v := by
  obtain ⟨a, ha, hbl, rfl⟩ := hw.attained
  obtain ⟨b, hb, hb', rfl⟩ := hv.attained
  exact Nat.le_antisymm (hw.least b hb hb') (hv.least a ha hbl)

namespace Lexer

variable {s : Lexer} {lines : List (List Char)} {line : List Char}

theorem lineIndent_eq (hs : s.style = some .spaces) (line : List Char) :
    s.lineIndent line = leadingSpaces line := by
  simp [lineIndent, hs, leadingSpaces]

/-- **The search for the width of a block ends at the least indentation**, from any width that a line
has. -/
theorem isLeastIndent_blockWidth (hs : s.style = some .spaces) (hind : s.indent = 0)
    (hi : ∀ line ∈ lines, isBlankText line = false → 0 < leadingSpaces line) (width : Nat)
    (hw : ∃ line ∈ lines, isBlankText line = false ∧ leadingSpaces line = width) :
    IsLeastIndent lines (s.blockWidth lines width) := by
  have ho {width : Nat} {line : List Char} {rest : List (List Char)}
      (hd : lines.dropWhile (s.inBlock width) = line :: rest) :
      line ∈ lines ∧ leadingSpaces line < width ∧ isBlankText line = false := by
    have hl := head?_dropWhile_not (s.inBlock width) lines
    rw [hd] at hl
    have hl : s.inBlock width line = false := hl
    rw [inBlock, lineIndent_eq hs, Bool.or_eq_false_iff, decide_eq_false_iff_not, Nat.not_le] at hl
    exact ⟨(dropWhile_suffix _).mem (hd ▸ mem_cons_self), hl⟩
  fun_induction s.blockWidth lines width with
  | case1 width hd =>
    refine ⟨hw, fun line hl hb => ?_⟩
    have hin := dropWhile_eq_nil_iff.mp hd line hl
    rwa [inBlock, hb, Bool.or_false, lineIndent_eq hs, decide_eq_true_eq] at hin
  | case2 width line rest hd hle ih =>
    obtain ⟨hm, -, hb⟩ := ho hd
    exact ih ⟨line, hm, hb, (lineIndent_eq hs line).symm⟩
  | case3 width line rest hd hle =>
    obtain ⟨hm, hn, hb⟩ := ho hd
    rw [lineIndent_eq hs, hind] at hle
    exact absurd ⟨hi line hm hb, hn⟩ hle

theorem dropBytes_eq_drop {w : Nat} (h : ∀ c ∈ line.take w, c = ' ') :
    dropBytes w line = line.drop w := by
  induction w generalizing line with
  | zero => cases line <;> rfl
  | succ w ih =>
    cases line with
    | nil => rfl
    | cons c line =>
      obtain ⟨rfl, hl⟩ := forall_mem_cons.mp h
      exact ih hl

end Lexer

theorem IsBlockOfCode.dropBytes_eq {lines : List (List Char)} (h : IsBlockOfCode lines) {w : Nat}
    (hw : IsLeastIndent lines w) : lines.map (Lexer.dropBytes w) = lines.map (·.drop w) := by
  refine map_congr_left fun line hl => Lexer.dropBytes_eq_drop fun c hc => ?_
  cases hb : isBlankText line with
  | true => exact h.blank line hl hb c (mem_of_mem_take hc)
  | false =>
    have hf : line.take w <+: line.takeWhile (· == ' ') :=
      prefix_of_prefix_length_le ( take_prefix w line) ( takeWhile_prefix _)
        (Nat.le_trans (length_take_le w line) (hw.least line hl hb))
    have hs : (c == ' ') :=
      mem_takeWhile_imp (p := (· == ' ')) (hf.subset hc)
    exact beq_iff_eq.mp hs

/-! ## Tokens -/

/-- The tokens of lines, with line breaks between them. -/
def linesKinds : Bool → List (List Char) → List TokenKind
  | _, [] => []
  | first, line :: lines =>
    (if first then [] else [.newline]) ++ TextPart.plainKinds line ++ linesKinds false lines

namespace Setting

variable {env : Setting} {s : Lexer}

theorem nextMarker_off (text : List Char) : nextMarker false false text = (text, none) := by
  induction text with
  | nil => rfl
  | cons c text ih =>
    have hn : markerAt false false (c :: text) = none := by
      unfold markerAt
      split <;> rfl
    rw [nextMarker, hn, ih]

theorem adds_addLines (hi : env.interpolated = false) (hs : s.interpolating = false)
    (w : Nat) (first : Bool) (lines : List (List Char)) :
    ∃ t, env.addLines w first lines s = .ok t ∧ s.Adds (linesKinds first lines) t := by
  induction lines generalizing s first with
  | nil => exact ⟨s, rfl, rfl, rfl, rfl, rfl, rfl⟩
  | cons line lines ih =>
    let next : Lexer :=
      (if first then s.advanceLine 1 else (s.advanceLine 1).push .newline).advanceColumn w
    have hn : s.Adds (if first then [] else [.newline]) next := by
      cases first <;> exact ⟨rfl, rfl, rfl, rfl, rfl⟩
    have hl := hn.trans (TextPart.adds_pushSomeText next line)
    have hte : env.addText .plain line next = .ok (next.pushSomeText .plain line) := by
      rw [addText, addTextSteps, hn.interpolating, hs, hi, nextMarker_off]
      rfl
    obtain ⟨t, ht, ha⟩ := ih (hl.interpolating.trans hs) false
    refine ⟨t, ?_, hl.trans ha⟩
    rw [addLines]
    rw [hte]
    exact ht

end Setting

/-! ## Lines in a text -/

theorem splitLines_append {line cs : List Char} {lines : List (List Char)} (hl : '\n' ∉ line)
    (h : splitLines cs = [] :: lines) : splitLines (line ++ cs) = line :: lines := by
  induction line with
  | nil => exact h
  | cons c line ih =>
    obtain ⟨hc, hl⟩ := ne_and_not_mem_of_not_mem_cons hl
    rw [cons_append, splitLines, ih hl]
    exact fun h => hc h.symm

theorem splitLines_flatMap {lines : List (List Char)} (h : ∀ line ∈ lines, '\n' ∉ line) :
    splitLines (lines.flatMap ('\n' :: ·)) = [] :: lines := by
  induction lines with
  | nil => rfl
  | cons line lines ih =>
    obtain ⟨hli, hl⟩ := forall_mem_cons.mp h
    rw [flatMap_cons, cons_append, splitLines, splitLines_append hli (ih hl)]

theorem exists_dropWhile_isGap {line : List Char} (h : isBlankText line = false) :
    ∃ c ∈ line, ∃ tail, line.dropWhile isGap = c :: tail := by
  cases hd : line.dropWhile isGap with
  | nil =>
    refine absurd (all_eq_true.mpr fun c hc => ?_) (Bool.eq_false_iff.mp h)
    have hg := dropWhile_eq_nil_iff.mp hd c hc
    rw [isGap, Bool.or_eq_true, beq_iff_eq, beq_iff_eq] at hg
    rcases hg with rfl | rfl <;> rfl
  | cons c tail =>
    exact ⟨c, (dropWhile_suffix _).mem (hd ▸ mem_cons_self), tail, rfl⟩

namespace Setting

variable {env : Setting} {s : Lexer} {lines : List (List Char)} {w : Nat}

theorem pipelessText_code (hh : env.hooks = []) (hin : env.interpolated = false)
    (hl : IsBlockOfCode lines) (hw : IsLeastIndent lines w)
    (hr : s.rest = lines.flatMap ('\n' :: ·)) (hs : s.interpolating = false)
    (hst : s.style = none) (hi : s.indents = []) :
    ∃ t, env.pipelessText s = .ok (true, t) ∧ t.rest = [] ∧ t.indents = [] ∧ t.ended = s.ended ∧
      t.tokens.map Token.kind = .endPipelessText ::
        ((linesKinds true (Lexer.dropEmptyEnd (lines.map (·.drop w)))).reverse ++
          .startPipelessText :: s.tokens.map Token.kind) := by
  obtain ⟨line, hli, hb⟩ := hl.first
  obtain ⟨more, rfl⟩ := head?_eq_some_iff.mp hli
  have hm : line ∈ line :: more := mem_cons_self
  have hsk : Lexer.blank s = .ok (false, s) := by
    obtain ⟨c, hc, tail, hd⟩ := exists_dropWhile_isGap hb
    have hbr : c ≠ '\n' := fun h => (hl.plain line hm).1 (h ▸ hc)
    have hen : (line ++ more.flatMap ('\n' :: ·)).dropWhile isGap =
        c :: (tail ++ more.flatMap ('\n' :: ·)) := by
      rw [dropWhile_append, hd]
      rfl
    simp [Lexer.blank, hr, hen, hbr]
  have hpa : env.repeatCall .blank Lexer.blank (s.rest.length + 1) s = .ok s := by
    rw [repeatCall, call_eq hh, hsk]
    rfl
  let below : Lexer := { s with style := some .spaces }
  have hp := hl.indented line hm hb
  have hwi : s.indentation? = (some (leadingSpaces line), below) := by
    have hsp : ((line ++ more.flatMap ('\n' :: ·)).takeWhile (· == ' ')).length =
        leadingSpaces line := by
      rw [takeWhile_append, if_neg]
      · rfl
      · intro hle
        have hspa := ( takeWhile_prefix (· == ' ')).eq_of_length hle
        refine absurd (all_eq_true.mpr fun c hc => ?_) (Bool.eq_false_iff.mp hb)
        obtain rfl := beq_iff_eq.mp (takeWhile_eq_self_iff.mp hspa c hc)
        rfl
    have hta : (line ++ more.flatMap ('\n' :: ·)).takeWhile (· == '\t') = [] := by
      cases line with
      | nil => cases hp
      | cons c line =>
        have hc : (c == ' ') := by
          by_contra hc
          simp [leadingSpaces, hc] at hp
        rw [beq_iff_eq.mp hc]
        rfl
    simp [Lexer.indentation?, hr, hst, hta, hsp, hp, below]
  have hspl : splitLines (below.rest.drop 1) = line :: more := by
    rw [hr]
    exact splitLines_append (hl.plain line hm).1 (splitLines_flatMap fun other ho =>
      (hl.plain other (mem_cons_of_mem line ho)).1)
  have hlea : below.blockWidth (line :: more) (leadingSpaces line) = w :=
    (Lexer.isLeastIndent_blockWidth rfl (by simp [below, Lexer.indent, hi])
      hl.indented _ ⟨line, hm, hb, rfl⟩).unique hw
  have hal : (line :: more).takeWhile (below.inBlock w) = line :: more := by
    refine takeWhile_eq_self_iff.mpr fun other ho => ?_
    rw [Lexer.inBlock, Lexer.lineIndent_eq rfl]
    cases ho' : isBlankText other with
    | true => simp
    | false => simpa using hw.least other ho ho'
  let inside : Lexer := { below.push .startPipelessText with rest := [] }
  obtain ⟨t, ht, ha⟩ := adds_addLines (s := inside) hin hs w true
    (Lexer.dropEmptyEnd ((line :: more).map (·.drop w)))
  refine ⟨t.push .endPipelessText, ?_, ha.rest, ha.indents.trans hi, ha.ended, ?_⟩
  · have hins : (below.push .startPipelessText).consume
        ((line :: more).flatMap fun line => '\n' :: line).length = inside := by
      simp [inside, below, Lexer.consume, Lexer.push, Lexer.pushAt, hr]
    have hwid : ¬leadingSpaces line ≤ below.indent := by
      simpa [below, Lexer.indent, hi, Nat.pos_iff_ne_zero] using hp
    rw [pipelessText, hpa]
    simp only [bind, Except.bind, hwi, if_neg hwid, hspl, hlea, hal, hins, hl.dropBytes_eq hw]
    have hem : inside.rest.isEmpty := rfl
    rw [if_pos hem, ht]
    rfl
  · show TokenKind.endPipelessText :: t.tokens.map Token.kind = _
    rw [ha.tokens]
    rfl

theorem tokenize_code (file : Option String) (validator : Validator) (hl : IsBlockOfCode lines)
    (hw : IsLeastIndent lines w) :
    ∃ tokens, tokenize { file, validator } ("-\n" ++ joinLines lines) = .ok tokens ∧
      tokens.map Token.kind = .blockCode :: .startPipelessText ::
        (linesKinds true (Lexer.dropEmptyEnd (lines.map (·.drop w))) ++
          [.endPipelessText, .eos]) := by
  let env : Setting := ({ file, validator } : Setting).nesting maxInterpolationDepth
  have hh : env.hooks = [] := hooks_nesting _ _
  have hi : env.interpolated = false := interpolated_nesting _ _
  have hb : '\n' :: (joinLines lines).toList = lines.flatMap ('\n' :: ·) := by
    obtain ⟨line, hli, -⟩ := hl.first
    obtain ⟨more, rfl⟩ := head?_eq_some_iff.mp hli
    rw [toList_joinLines_cons]
    rfl
  have hs : normalize ("-\n" ++ joinLines lines) = '-' :: '\n' :: (joinLines lines).toList := by
    have hu : '\r' ∉ '-' :: '\n' :: (joinLines lines).toList := by
      rw [hb]
      simp only [mem_cons, mem_flatMap, not_or, not_exists, not_and]
      exact ⟨by decide, fun line hli => ⟨by decide, (hl.plain line hli).2⟩⟩
    rw [normalize, String.toList_append]
    exact unifyLineEnds_eq hu
  let start : Lexer := { rest := '-' :: '\n' :: (joinLines lines).toList }
  let below : Lexer :=
    { rest := '\n' :: (joinLines lines).toList, column := 2, interpolating := false,
      tokens := [⟨.blockCode, ⟨1, 1⟩⟩] }
  obtain ⟨t, ht, hr, hin, hen, hto⟩ :=
    pipelessText_code (s := below) hh hi hl hw hb rfl rfl rfl
  have ha : env.advance start = .ok (true, t) := by
    have hf : env.rules.filter (·.1.fits start.rest) =
        [(.each, env.each), (.blockCode, env.blockCode), (.code, env.code)] := rfl
    have hea : env.each start = .ok (false, start) := rfl
    refine advance_eq hh [(.each, env.each)] _ hf (by simpa using hea) ?_ (by simp)
    show (do pure (true, ← env.callPipelessText below) : Step) = _
    rw [callPipelessText, call_eq hh, ht]
    rfl
  have hru : env.run start = .ok { t.push .eos with ended := true } := by
    rw [run, runSteps_succ hh rfl, ha]
    show env.runSteps _ t = _
    rw [show start.rest.length = (joinLines lines).toList.length + 1 + 1 from rfl,
      runSteps_succ hh hen, advance_eos hh hi hr, hin]
    rfl
  refine ⟨({ t.push .eos with ended := true } : Lexer).tokens.reverse, ?_, ?_⟩
  · rw [tokenize, hs, show run _ _ = _ from hru]
    rfl
  · show ((⟨.eos, t.position⟩ :: t.tokens : List Token).reverse.map Token.kind) = _
    rw [map_reverse, map_cons, hto]
    simp [below]

end Setting

/-! ## Trees -/

/-- A node for code that is not written, without a body. -/
def unbufferedCode (source : String) : Node :=
  .code { source, buffer := false, escape := false, inline := false, debug := true, location := {} }
    none

section Trees

variable {body tokens : TokenStream} {lines : List (List Char)}

theorem isCode_linesKinds {first : Bool} :
    ∀ kind ∈ linesKinds first lines, kind = .newline ∨ ∃ text, kind = .text text := by
  induction lines generalizing first with
  | nil => exact forall_mem_nil _
  | cons line lines ih =>
    refine forall_mem_append.mpr ⟨forall_mem_append.mpr ⟨?_, ?_⟩, ih⟩
    · cases first <;> simp
    · unfold TextPart.plainKinds
      split <;> simp

theorem join_linesKinds (lines : List (List Char)) (p : Position) :
    String.join ((linesKinds false lines).map fun kind => Token.codeText ⟨kind, p⟩) =
        String.ofList (lines.flatMap ('\n' :: ·)) ∧
      String.join ((linesKinds true lines).map fun kind => Token.codeText ⟨kind, p⟩) =
        joinLines lines := by
  have hp (line : List Char) :
      String.join ((TextPart.plainKinds line).map fun kind => Token.codeText ⟨kind, p⟩) =
        String.ofList line := by
    unfold TextPart.plainKinds
    split
    · rename_i hem
      rw [isEmpty_iff.mp hem]
      rfl
    · simp [Token.codeText]
  induction lines with
  | nil => exact ⟨rfl, rfl⟩
  | cons line lines ih =>
    have ht : String.ofList (line ++ lines.flatMap ('\n' :: ·)) = joinLines (line :: lines) := by
      rw [← toList_joinLines_cons, String.ofList_toList]
    have hb : Token.codeText ⟨.newline, p⟩ = "\n" := rfl
    constructor
    · simp [linesKinds, hp, ih.1, hb, String.ofList_append]
    · simp [linesKinds, hp, ih.1, ← ht, String.ofList_append]

theorem TreeSetting.run_codeLines (env : TreeSetting) {last : Token} (rest : TokenStream)
    (hb : ∀ t ∈ body, t.kind = .newline ∨ ∃ text, t.kind = .text text)
    (hl : last.kind = .endPipelessText) (source : String) {fuel : Nat}
    (hf : body.length < fuel) :
    (env.codeLines fuel source).run (body ++ last :: rest) =
      .ok (source ++ String.join (body.map Token.codeText), rest) := by
  induction body generalizing source fuel with
  | nil =>
    obtain ⟨fuel, rfl⟩ := Nat.exists_eq_succ_of_ne_zero (Nat.ne_zero_of_lt hf)
    obtain ⟨kind, at_⟩ := last
    obtain rfl : kind = .endPipelessText := hl
    exact congrArg (fun text => Except.ok (text, rest)) (by simp)
  | cons t body ih =>
    obtain ⟨fuel, rfl⟩ := Nat.exists_eq_succ_of_ne_zero (Nat.ne_zero_of_lt hf)
    obtain ⟨hk, hm⟩ := forall_mem_cons.mp hb
    have hn : (env.codeLines (fuel + 1) source).run (t :: body ++ last :: rest) =
        (env.codeLines fuel (source ++ t.codeText)).run (body ++ last :: rest) := by
      obtain ⟨kind, at_⟩ := t
      obtain rfl | ⟨text, rfl⟩ : kind = .newline ∨ ∃ text, kind = .text text := hk <;> rfl
    rw [hn, ih hm _ (Nat.lt_of_succ_lt_succ hf)]
    simp [String.append_assoc]

theorem ofTokens_code (file : Option String)
    (hto : tokens.map Token.kind = .blockCode :: .startPipelessText ::
      (linesKinds true lines ++ [.endPipelessText, .eos])) :
    ∃ tree, Block.ofTokens file {} tokens = .ok tree ∧
      tree.unlocated = { nodes := [unbufferedCode (joinLines lines)], location := {} } := by
  obtain ⟨⟨_, p⟩, behind, rfl, rfl, hb⟩ := map_eq_cons_iff.mp hto
  obtain ⟨⟨_, q⟩, inside, rfl, rfl, hi⟩ := map_eq_cons_iff.mp hb
  obtain ⟨body, ends, rfl, hbo, hen⟩ := map_eq_append_iff.mp hi
  obtain ⟨last, stop, rfl, hl, hst⟩ := map_eq_cons_iff.mp hen
  obtain ⟨⟨_, r⟩, nothing, rfl, rfl, hn⟩ := map_eq_cons_iff.mp hst
  obtain rfl : nothing = [] := map_eq_nil_iff.mp hn
  have hs : String.join (body.map Token.codeText) = joinLines lines := by
    rw [← (join_linesKinds lines p).2, ← hbo, map_map]
    rfl
  have hk : ∀ t ∈ body, t.kind = .newline ∨ ∃ text, t.kind = .text text := fun t ht =>
    isCode_linesKinds t.kind (hbo ▸ mem_map_of_mem ht)
  let code : Node := .code { source := joinLines lines, buffer := false, escape := false,
                             inline := false, debug := true, location := .ofPosition file p } none
  have hf : body.length < (body ++ last :: [⟨.eos, r⟩]).length + 1 := by
    rw [length_append]; omega
  have hr (n : Nat) :=
    TreeSetting.run_codeLines (TreeSetting.level file n) [⟨.eos, r⟩] hk hl "" hf
  rw [hs] at hr
  refine ⟨{ nodes := [code], location := { file } }, ?_, rfl⟩
  generalize hto : Token.mk .blockCode p :: _ = tokens
  have hc (n : Nat) :
      (TreeSetting.level file (n + 1)).expression.run tokens = .ok (code, [⟨.eos, r⟩]) := by
    rw [← hto]
    show (do
      let source ← (TreeSetting.level file n).codeLines _ ""
      pure (.code { source, buffer := false, escape := false, inline := false, debug := true,
                    location := .ofPosition file p } none) : TokenReader Node).run _ = _
    rw [StateT.run_bind, hr]
    rfl
  have hre : Block.read file {} tokens =
      .ok ({ nodes := [code], location := { file } }, [⟨.eos, r⟩]) := by
    simp only [Block.read, TokenReader.run_bind, TreeSetting.run_budget]
    refine ⟨_, _, ⟨rfl, rfl⟩, [code], _, TokenReader.run_bind.mpr ?_, rfl⟩
    subst hto
    exact ⟨⟨.blockCode, p⟩, _, rfl, TokenReader.run_bind.mpr ⟨code, _, hc _, rfl⟩⟩
  exact Block.ofTokens_eq_ok_iff.mpr ⟨_, hre⟩

end Trees

/-- **Block code is dedented by its least indentation.** -/
theorem parse_blockCode (lines : List (List Char)) (h : IsBlockOfCode lines) {w : Nat}
    (hw : IsLeastIndent lines w) (parser : Script.Parser) (validator : Validator)
    (evaluator : Evaluator) (file : Option String) :
    ∃ tree, ({ parser, validator, evaluator } : Compiler).parse file ("-\n" ++ joinLines lines) =
        .ok tree ∧
      tree.unlocated =
        { nodes := [unbufferedCode (joinLines (Lexer.dropEmptyEnd (lines.map (·.drop w))))],
          location := {} } := by
  obtain ⟨tokens, htokens, hkinds⟩ := Setting.tokenize_code file validator h hw
  obtain ⟨tree, htree, hcode⟩ := ofTokens_code file hkinds
  refine ⟨tree, ?_, hcode⟩
  show (tokenize { file, validator } _ >>= Block.ofTokens file {}) = _
  rw [htokens]
  exact htree

/-- The least indentation stands below the first line, and the last line is blank. -/
theorem parse_blockCode_shallow :
    let lines := ["    a".toList, [], "  b".toList, " ".toList]
    ∃ tree, ({ parser := fun _ => none, validator := .acceptAll } : Compiler).parse none
        ("-\n" ++ joinLines lines) = .ok tree ∧
      tree.unlocated = { nodes := [unbufferedCode "  a\n\nb"], location := {} } := by
  intro lines
  have hcode : joinLines (Lexer.dropEmptyEnd (lines.map (·.drop 2))) = "  a\n\nb" := by
    decide +kernel
  have hblank : lines.all (fun line => !isBlankText line || line.all (· == ' ')) = true := by
    decide +kernel
  have hlines : IsBlockOfCode lines :=
    ⟨⟨_, rfl, by decide⟩, by decide +kernel,
      fun line hline h => by simpa [h] using all_eq_true.mp hblank line hline, by decide +kernel⟩
  rw [← hcode]
  exact parse_blockCode lines hlines ⟨⟨"  b".toList, by decide +kernel⟩, by decide +kernel⟩ _ _ _ _

end PugTemplate
