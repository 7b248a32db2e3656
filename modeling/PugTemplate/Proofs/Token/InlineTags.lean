import PugTemplate.Proofs.Token.Bytes.Rules
import PugTemplate.Proofs.Token.Interpolations
import PugTemplate.Proofs.Token.WrittenLists
/-!
# Tags inside of text

The inside of a tag interpolation is read by a lexer of its own, which is given all that is left of
the line. It finds its end at a bracket that no rule reads, or inside of its own text, and hands back
what comes after it. So a tag with attributes and text is read in the same way as on a line of its
own, to any depth that is allowed.
-/

namespace PugTemplate

open List Pattern Setting Lexer

/-- A text behind the space before it. Without a text there is no space. -/
def spaced (text : List Char) : List Char := if text.isEmpty then [] else ' ' :: text

theorem mem_spaced {c : Char} {text : List Char} (h : c ∈ text) : c ∈ spaced text := by
  unfold spaced
  split
  · simp_all
  · exact mem_cons_of_mem _ h

/-- A text with tags in it, each of which may hold such a text. -/
inductive InlineText where
  | done (run : List Char)
  | tag (run : List Char) (head : WrittenTag) (inside more : InlineText)

namespace InlineText

def chars : InlineText → List Char
  | done run => run
  | tag run head inside more =>
    run ++ '#' :: '[' :: (head.chars ++ (spaced inside.chars ++ ']' :: more.chars))

/-- The kinds of the tokens: the text before a tag has one even if it is empty. -/
def kinds : InlineText → List TokenKind
  | done run => TextPart.plainKinds run
  | tag run head inside more =>
    .text (String.ofList run) :: .startInterpolation ::
      (head.kinds ++ inside.kinds ++ .endInterpolation :: more.kinds)

def depth : InlineText → Nat
  | done _ => 0
  | tag _ _ inside more => max (inside.depth + 1) more.depth

/-- Nothing but the tags is more than text. Inside of a tag, a bracket would end it. -/
def isPlain (nested : Bool) : InlineText → Bool
  | done run => run.all (isRunPart nested)
  | tag run _ inside more =>
    run.all (isRunPart nested) && inside.isPlain true && more.isPlain nested
where
  /-- A character of the text around the tags. -/
  isRunPart (nested : Bool) (c : Char) : Bool :=
    c != '#' && c != '!' && c != '\\' && !(nested && c == ']')

theorem kinds_eq_nil {t : InlineText} (h : t.chars = []) : t.kinds = [] := by
  cases t with
  | done run =>
    obtain rfl : run = [] := h
    rfl
  | tag run head inside more => simp [chars] at h

theorem isPlain_false {t : InlineText} (h : t.isPlain true) : t.isPlain false := by
  have hp {run : List Char} (hr : run.all (isPlain.isRunPart true)) :
      run.all (isPlain.isRunPart false) := by
    simp only [all_eq_true, isPlain.isRunPart, Bool.and_eq_true] at hr ⊢
    exact fun c hc => ⟨(hr c hc).1, rfl⟩
  induction t with
  | done run => exact hp h
  | tag run head inside more ihinside ihmore =>
    simp only [isPlain, Bool.and_eq_true] at h ⊢
    exact ⟨⟨hp h.1.1, h.1.2⟩, ihmore h.2⟩

theorem nextMarker_run (interpolating : Bool) {nested : Bool} {run : List Char}
    (hr : run.all (isPlain.isRunPart nested)) (rest : List Char) :
    nextMarker interpolating nested (run ++ rest) =
      (run ++ (nextMarker interpolating nested rest).1, (nextMarker interpolating nested rest).2) := by
  induction run with
  | nil => rfl
  | cons c cs ih =>
    obtain ⟨hc, hcs⟩ := Bool.and_eq_true_iff.mp hr
    have hm : markerAt interpolating nested (c :: (cs ++ rest)) = none := by
      simp only [isPlain.isRunPart, Bool.and_eq_true, bne_iff_ne] at hc
      unfold markerAt
      split <;> simp_all
    rw [cons_append, nextMarker, hm, ih hcs]
    rfl

end InlineText

namespace Setting

variable {env : Setting} {head : WrittenTag} {t : InlineText} {later : List Char} {s : Lexer}

/-- What stands behind the text of a lexer: the end of its tag and the rest of the line, if it reads
one. -/
def back (env : Setting) (later : List Char) : List Char :=
  if env.interpolated then ']' :: later else []

def Fills (env : Setting) (t : InlineText) : Prop :=
  ∀ (s : Lexer) (later : List Char) (k : Nat), s.interpolating = true →
    (t.chars ++ env.back later).length < k → '\n' ∉ t.chars ++ env.back later →
      ∃ u, s.Adds t.kinds u ∧ env.addTextSteps .plain k [] false (t.chars ++ env.back later) s =
        .ok (if env.interpolated then u.close later else u)

/-- The end of a tag in text leaves what comes after it, and that of a template has a token. -/
theorem runSteps_back (hh : env.hooks = []) (hr : s.rest = env.back later)
    (hin : s.indents = []) (hen : s.ended = false) (n : Nat) :
    ∃ u, env.runSteps (n + 1) s = .ok u ∧ (env.interpolated → u.rest = later) ∧
      u.tokens.map Token.kind =
        (if env.interpolated then [] else [.eos]) ++ s.tokens.map Token.kind := by
  rw [runSteps_succ hh hen]
  cases hi : env.interpolated with
  | true =>
    replace hr : s.rest = ']' :: later := by rw [hr, back, if_pos hi]
    have hf : env.rules.filter (·.1.fits s.rest) = [(.endInterpolation, env.endInterpolation)] := by
      rw [hr]
      rfl
    have ha : env.advance s = .ok (true, { s with rest := later, ended := true }) :=
      advance_eq hh [] _ hf (by simp) (by simp [endInterpolation, hr, hi]) (by simp)
    rw [ha]
    exact ⟨_, runSteps_ended rfl n, fun _ => rfl, rfl⟩
  | false =>
    replace hr : s.rest = [] := by rw [hr, back, hi]; rfl
    rw [advance_eos hh hi hr, hin]
    exact ⟨_, runSteps_ended rfl n, by rintro ⟨⟩, rfl⟩

/-- **A tag with its text** under a lexer for a template or for a tag in text. -/
theorem run_inline (hh : env.hooks = []) (hac : head.Accepted env.validator)
    (ht : env.Fills t) (hli : '\n' ∉ t.chars ++ env.back later) {p : Position}
    (hs : s.Stands ⟨head.chars ++ (spaced t.chars ++ env.back later), [], p⟩ []) :
    ∃ u, env.run s = .ok u ∧ (env.interpolated → u.rest = later) ∧ u.tokens.map Token.kind =
        (if env.interpolated then [] else [.eos]) ++ (head.kinds ++ t.kinds).reverse := by
  have hen : Delimited (spaced t.chars ++ env.back later) := by
    unfold spaced back
    split <;> split <;> rintro c ⟨⟩ <;> rfl
  obtain ⟨behind, q, new, m, hb, hn, hm, hru⟩ := lexes_head hh hac [] hen s p []
    (s.rest.length + 1) hs (by rw [hs.rest_eq]; exact Nat.lt_succ_self _)
  have hto : behind.tokens.map Token.kind = head.kinds.reverse := by
    rw [← hn, ← map_reverse, ← nil_append new, ← hb.tokens_eq, reverse_reverse]
  obtain ⟨m, rfl⟩ : ∃ l, m = l + 1 := ⟨m - 1, by omega⟩
  rw [run, hru]
  by_cases hem : t.chars = []
  · have hl : behind.rest = env.back later := by
      rw [hb.rest_eq, hem]
      rfl
    obtain ⟨u, hu, hr, hk⟩ :=
      runSteps_back hh hl hb.indents_eq hb.running m
    refine ⟨u, hu, hr, ?_⟩
    rw [hk, hto, InlineText.kinds_eq_nil hem, append_nil]
  · have hsp : spaced t.chars = [' '] ++ t.chars := by simp [spaced, hem]
    have hl : behind.rest = [' '] ++ (t.chars ++ env.back later) := by
      rw [hb.rest_eq, hsp, append_assoc]
    obtain ⟨u, ha, hadd⟩ := ht
      ((behind.consume (1 + (t.chars ++ env.back later).length)).advanceColumn 1) later
      ((t.chars ++ env.back later).length + 1) hb.interpolating (Nat.lt_succ_self _) hli
    have hr : u.rest = [] := by
      rw [ha.rest]
      simp [consume, advanceColumn, hl, Nat.add_comm 1]
    have hk : u.tokens.map Token.kind = (head.kinds ++ t.kinds).reverse := by
      rw [ha.tokens, reverse_append, ← hto]
      rfl
    have had : env.advance behind = .ok (true, if env.interpolated then u.close later else u) :=
      (advance_textLine hh (.inl rfl) (by simp [hem]) hli hl).trans
        (congrArg (Prod.mk true <$> ·) hadd)
    rw [runSteps_succ hh hb.running, had]
    cases hi : env.interpolated with
    | true =>
      refine ⟨_, runSteps_ended rfl m, fun _ => ?_, hk⟩
      show later ++ u.rest = later
      rw [hr, append_nil]
    | false =>
      obtain ⟨m, rfl⟩ : ∃ l, m = l + 1 := ⟨m - 1, by
        rw [hsp] at hm
        simp only [length_append, length_cons] at hm
        omega⟩
      have hba : u.rest = env.back later := by rw [hr, back, hi]; rfl
      obtain ⟨v, hv, -, hend⟩ := runSteps_back hh hba
        (ha.indents.trans hb.indents_eq) (ha.ended.trans hb.running) m
      rw [hk, hi] at hend
      exact ⟨v, hv, by simp, hend⟩

theorem accepted_atLevel (hv : env.validator = fun _ => none) (level : Nat) :
    head.Accepted (env.atLevel level).validator := by
  intro items _ item _ value _
  rw [show (env.atLevel level).validator = env.validator from validator_nesting env _, hv]

/-- **Texts with tags** under the lexer. The induction is on the text: a tag is read by the lexer of
the next level, and what follows it by the same one. -/
theorem fills_text (hh : env.hooks = []) (hv : env.validator = fun _ => none)
    {level : Nat} (hp : t.isPlain (env.atLevel level).interpolated)
    (hd : level + t.depth ≤ maxInterpolationDepth) : (env.atLevel level).Fills t := by
  induction t generalizing level with
  | done run =>
    intro s later k hs hk hl
    obtain ⟨k, rfl⟩ : ∃ l, k = l + 1 := ⟨k - 1, by omega⟩
    refine ⟨s.pushSomeText .plain run, TextPart.adds_pushSomeText s run, ?_⟩
    unfold addTextSteps
    rw [InlineText.chars, hs, InlineText.nextMarker_run true hp]
    cases hi : (env.atLevel level).interpolated <;>
      simp [back, hi, nextMarker, markerAt]
  | tag run head inside more ihinside ihmore =>
    intro s later k hs hk hl
    obtain ⟨k, rfl⟩ : ∃ l, k = l + 1 := ⟨k - 1, by omega⟩
    simp only [InlineText.isPlain, Bool.and_eq_true] at hp
    obtain ⟨⟨hru, hin⟩, hmo⟩ := hp
    simp only [InlineText.depth] at hd
    generalize hb : more.chars ++ (env.atLevel level).back later = after
    have hc : (InlineText.tag run head inside more).chars ++ (env.atLevel level).back later =
        run ++ '#' :: '[' :: (head.chars ++ (spaced inside.chars ++ ']' :: after)) := by
      simp [InlineText.chars, ← hb]
    rw [hc] at hk hl ⊢
    have hla : '\n' ∉ inside.chars ++ ']' :: after := by
      have hsp := @mem_spaced '\n' inside.chars
      simp only [mem_append, mem_cons] at hl ⊢
      tauto
    -- the tag
    let opened := (((s.pushText .plain run).advanceColumn 0).push .startInterpolation).advanceColumn 2
    let inner := opened.inner (head.chars ++ (spaced inside.chars ++ ']' :: after))
    have hinn : inner.Stands ⟨_, [], inner.position⟩ [] :=
      ⟨rfl, rfl, rfl, rfl, by simp [inner, Lexer.inner], rfl, rfl⟩
    obtain ⟨v, hr, hle, hki⟩ := @run_inline (env.atLevel (level + 1)) head inside after inner
      (hooks_atLevel hh _) (accepted_atLevel hv _) (ihinside hin (by omega)) hla _
      hinn
    have ht : (env.atLevel level).addTag (head.chars ++ (spaced inside.chars ++ ']' :: after))
        ((s.pushText .plain run).advanceColumn 0) = .ok (after, opened.afterInner v) := by
      unfold addTag
      rw [nested_atLevel, if_pos (by omega)]
      show ((env.atLevel (level + 1)).run inner >>= _) = _
      rw [hr, ← hle rfl]
      rfl
    have ha : s.Adds ([.text (String.ofList run), .startInterpolation] ++
        (head.kinds ++ inside.kinds) ++ [.endInterpolation]) (opened.afterInner v) := by
      refine ⟨rfl, rfl, rfl, rfl, ?_⟩
      show .endInterpolation :: (v.tokens ++ opened.tokens).map Token.kind = _
      rw [map_append, hki]
      simp [atLevel, opened, pushText, push, pushAt, advanceColumn, TextForm.token]
    -- what follows it
    have hf : after.length < k := by
      simp only [length_append, length_cons] at hk
      omega
    obtain ⟨u, hm, had⟩ := ihmore hmo (by omega) (opened.afterInner v) later k hs (by rwa [hb]) (by
        rw [hb]
        exact fun h => hla (mem_append_right _ (mem_cons_of_mem _ h)))
    rw [hb] at had
    refine ⟨u, by simpa [InlineText.kinds] using ha.trans hm, ?_⟩
    unfold addTextSteps
    rw [hs, InlineText.nextMarker_run true hru]
    simp only [nextMarker, markerAt, if_true, append_nil, nil_append]
    show ((env.atLevel level).addTag _ ((s.pushText .plain run).advanceColumn 0) >>= _) = _
    rw [ht]
    exact had

end Setting

theorem tokenize_inline (file : Option String) (head : WrittenTag) {text : InlineText}
    (hp : text.isPlain false) (hd : text.depth ≤ maxInterpolationDepth)
    {source : String} (hs : source.toList = head.chars ++ spaced text.chars)
    (hl : '\n' ∉ source.toList ∧ '\r' ∉ source.toList) :
    (tokenize { file, validator := fun _ => none } source).toOption.map (·.map Token.kind) =
      some (head.kinds ++ text.kinds ++ [.eos]) := by
  let env : Setting := { file, validator := fun _ => none }
  have hno : normalize source = head.chars ++ spaced text.chars := by
    obtain ⟨c, tail, hn, hc⟩ : ∃ c tail, head.name.toList = c :: tail ∧
        isPlainWord c := by
      have hf := head.name_free
      simp only [isFreeName, Bool.and_eq_true, beq_iff_eq] at hf
      obtain ⟨c, cs, hn, hc, -⟩ := of_tagName?_eq hf.1.1.1.1
      exact ⟨c, cs, hn, hc⟩
    have hcu := hs
    rw [WrittenTag.chars, hn] at hcu
    exact (normalize_eq hcu hc hl.2).trans hs
  have hb : '\n' ∉ text.chars ++ (env.atLevel 0).back [] := by
    rw [show (env.atLevel 0).back [] = [] from rfl, append_nil]
    intro h
    exact hl.1 (by rw [hs]; exact mem_append_right _ (mem_spaced h))
  have hst := stands_start (head.chars ++ (spaced text.chars ++ (env.atLevel 0).back []))
  obtain ⟨u, hru, -, hk⟩ := run_inline (hooks_atLevel rfl 0)
    (accepted_atLevel rfl 0) (fills_text rfl rfl hp (by omega)) hb hst
  have hr : tokenize env source = .ok u.tokens.reverse := by
    have hre : normalize source = head.chars ++ (spaced text.chars ++ (env.atLevel 0).back []) :=
      hno.trans (congrArg (head.chars ++ ·) (append_nil _).symm)
    rw [tokenize, hre, show env.nesting maxInterpolationDepth = env.atLevel 0 from rfl, hru]
    rfl
  rw [hr]
  simp only [Except.toOption, Option.map_some, map_reverse, hk]
  simp [atLevel]

/-- **A tag in text is read like a line of its own.** A tag with a free name, classes, ids, a list of
attributes and a text, in which there may be such tags again, has between the ends of an
interpolation the tokens that it has alone. -/
theorem tokenize_inlineTag {file : Option String} {head : WrittenTag} {inside : InlineText}
    {line before after : String} (hwritten : line.toList = head.chars ++ spaced inside.chars)
    (hinside : inside.isPlain true = true) (hdepth : inside.depth + 1 ≤ maxInterpolationDepth)
    (haround : (before ++ after).toList.all (InlineText.isPlain.isRunPart false) = true)
    (hline : '\n' ∉ (line ++ before ++ after).toList ∧ '\r' ∉ (line ++ before ++ after).toList) :
    let read (source : String) :=
      (tokenize { file, validator := fun _ => none } source).toOption.map (·.map Token.kind)
    ∃ kinds, read line = some (kinds ++ [.eos]) ∧
      read ("p " ++ before ++ "#[" ++ line ++ "]" ++ after) =
        some ([.tag "p", .text before, .startInterpolation] ++ kinds ++ [.endInterpolation] ++
          TextPart.plainKinds after.toList ++ [.eos]) := by
  intro read
  simp only [String.toList_append, List.mem_append, not_or] at hline
  obtain ⟨hbreak, hreturn⟩ := hline
  refine ⟨head.kinds ++ inside.kinds, ?_, ?_⟩
  · exact tokenize_inline file head (InlineText.isPlain_false hinside) (by omega) hwritten
      ⟨hbreak.1.1, hreturn.1.1⟩
  · let text : InlineText := .tag before.toList head inside (.done after.toList)
    have hsource : ("p " ++ before ++ "#[" ++ line ++ "]" ++ after).toList =
        ({ name := "p" } : WrittenTag).chars ++ spaced text.chars := by
      simp [text, InlineText.chars, WrittenTag.chars, spaced, hwritten]
    have hplain : text.isPlain false = true := by
      rw [String.toList_append, List.all_append, Bool.and_eq_true] at haround
      simp [text, InlineText.isPlain, haround, hinside]
    have hread := tokenize_inline file { name := "p" } hplain
      (by simpa [text, InlineText.depth] using hdepth) hsource (by simp [hbreak, hreturn])
    refine hread.trans ?_
    simp [text, InlineText.kinds, WrittenTag.kinds]

/-- Brackets in strings and around the tags, a class, an id and a tag inside of the tag. -/
theorem tokenize_inlineTag_nested :
    (tokenize { validator := fun _ => none }
      "p a] #[b.c#d(e=']' f) g#[i(h=\"\\\"]\")]k] l").toOption.map (·.map Token.kind) =
      some [.tag "p", .text "a] ", .startInterpolation, .tag "b", .class "c", .id "d",
        .startAttributes, .attribute "e" (.expression "']'") true, .attribute "f" .bare false,
        .endAttributes, .text "g", .startInterpolation, .tag "i", .startAttributes,
        .attribute "h" (.expression "\"\\\"]\"") true, .endAttributes, .endInterpolation,
        .text "k", .endInterpolation, .text " l", .eos] := by
  let inner : WrittenTag :=
    { name := "i"
      attributes := some [([], { label := .plain ['h'], value := some (true, "\"\\\"]\"".toList) })] }
  let head : WrittenTag :=
    { name := "b"
      marks := [.className "c" (by decide +kernel), .idName "d" (by decide +kernel)]
      attributes := some [([], { label := .plain ['e'], value := some (true, "']'".toList) }),
        ([' '], { label := .plain ['f'] })] }
  obtain ⟨kinds, halone, hread⟩ := @tokenize_inlineTag none head
    (.tag ['g'] inner (.done []) (.done ['k'])) "b.c#d(e=']' f) g#[i(h=\"\\\"]\")]k" "a] " " l"
    (by decide +kernel) (by decide +kernel) (by decide +kernel) (by decide +kernel) (by decide +kernel)
  have hkinds : kinds = head.kinds ++ [.text "g", .startInterpolation] ++ inner.kinds ++
      [.endInterpolation, .text "k"] :=
    List.append_cancel_right (Option.some.inj (halone.symm.trans (by decide +kernel)))
  exact hread.trans (by rw [hkinds]; decide +kernel)

/-- The name of a tag that starts with the word for the type of the document: alone it is read as such
a type, and in a text it takes the end of the interpolation. -/
theorem inlineTag_doctypes :
    Pattern.tagName? "doctypes".toList = some "doctypes".toList ∧ "doctypes" ∉ keywords ∧
      (tokenize { validator := fun _ => none } "doctypes").toOption.map (·.map Token.kind) =
        some [.doctype "s", .eos] ∧
      tokenize { validator := fun _ => none } "p a#[doctypes]b" =
        .error { cause := .unclosedInterpolation, position := ⟨1, 16⟩ } := by
  decide +kernel

end PugTemplate
