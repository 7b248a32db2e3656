import PugTemplate.Proofs.Script.Ranges
import PugTemplate.Proofs.Token.Outline
/-!
# Code inside of text

A line of text is cut into runs of plain text and the code between them. The tokens, written one
after the other, are the line again, but for the backslashes before a start of code that stands for
itself.
-/

namespace PugTemplate

open List Nesting

/-! ## Texts from left to right -/

/-- The character that starts code inside of text, whose result is escaped or not. -/
def codeSigil (escape : Bool) : Char := if escape then '#' else '!'

def IsClosed (text : List Char) : Prop :=
  ∃ t, ({} : Nesting.State).pushAll text = some t ∧ t.stack = []

instance (text : List Char) : Decidable (IsClosed text) :=
  decidable_of_iff ((({} : State).pushAll text).any (·.stack.isEmpty) = true)
    (by simp [IsClosed, Option.any_eq_true])

/-- A text that ends before the first brace at which nothing is open. -/
structure EndsAtBrace (source : List Char) : Prop where
  closed : IsClosed source
  first : ∀ front back, source = front ++ '}' :: back → ¬IsClosed front

inductive TextPart where
  | plain (c : Char)
  /-- The start of code that stands for itself, because of a backslash. -/
  | literal (escape : Bool)
  | code (escape : Bool) (source : List Char)

namespace TextPart

/-- The part, without the backslash of a literal. -/
def shown : TextPart → List Char
  | plain c => [c]
  | literal escape => [codeSigil escape, '{']
  | code escape source => codeSigil escape :: '{' :: source ++ ['}']

def code? : TextPart → Option (List Char × Bool)
  | code escape source => some (source, escape)
  | _ => none

/-- **A text is read from left to right.** A character is plain if neither code nor a literal starts
with it. -/
inductive Reads : List Char → List TextPart → Prop where
  | nil : Reads [] []
  | literal {escape cs parts} (h : Reads cs parts) :
      Reads ('\\' :: codeSigil escape :: '{' :: cs) (literal escape :: parts)
  | code {escape source cs parts} (hsource : EndsAtBrace source) (h : Reads cs parts) :
      Reads (codeSigil escape :: '{' :: source ++ '}' :: cs) (code escape source :: parts)
  | plain {c cs parts} (hcode : ∀ escape rest, c :: cs ≠ codeSigil escape :: '{' :: rest)
      (hliteral : ∀ escape rest, c :: cs ≠ '\\' :: codeSigil escape :: '{' :: rest)
      (h : Reads cs parts) : Reads (c :: cs) (plain c :: parts)

end TextPart

namespace TokenKind

def isPlainText : TokenKind → Bool
  | .text _ => true
  | _ => false

/-- A piece of text as it stands there: text, or code between its marks. -/
def shown : TokenKind → List Char
  | .text plain => plain.toList
  | .interpolatedCode source escape _ => codeSigil escape :: '{' :: source.toList ++ ['}']
  | _ => []

def code? : TokenKind → Option (List Char × Bool)
  | .interpolatedCode source escape _ => some (source.toList, escape)
  | _ => none

end TokenKind

/-- **The tokens that a text is split into.** They are text and code, and no text follows another
one. Together they show what the parts of the text show, with plain text before it, and have the same
code. -/
structure TextPart.Splits (front : List Char) (parts : List TextPart) (kinds : List TokenKind) :
    Prop where
  pieces : ∀ kind ∈ kinds, kind.isPlainText = true ∨
    ∃ source escape, kind = .interpolatedCode source escape true
  shown : kinds.flatMap TokenKind.shown = front ++ parts.flatMap TextPart.shown
  codes : kinds.filterMap TokenKind.code? = parts.filterMap TextPart.code?
  apart : kinds.IsChain fun kind next => ¬(kind.isPlainText = true ∧ next.isPlainText = true)

/-! ## Markers -/

namespace TextPart

theorem markerAt_cases {cs after : List Char} {marker : Marker}
    (h : markerAt true false cs = some (marker, after)) (ht : ¬['#', '['] <:+: cs) :
    ∃ escape, (marker = .code escape ∧ cs = codeSigil escape :: '{' :: after) ∨
      (marker = .literalCode (codeSigil escape) ∧ cs = '\\' :: codeSigil escape :: '{' :: after) := by
  unfold markerAt at h
  split at h
  · cases h
  · exact absurd ⟨[], _, rfl⟩ ht
  · cases h; exact ⟨true, .inl ⟨rfl, rfl⟩⟩
  · cases h; exact ⟨false, .inl ⟨rfl, rfl⟩⟩
  · exact absurd ⟨['\\'], _, rfl⟩ ht
  · cases h; exact ⟨true, .inr ⟨rfl, rfl⟩⟩
  · cases h; exact ⟨false, .inr ⟨rfl, rfl⟩⟩
  · cases h

theorem reads_nextMarker {cs before : List Char} {found : Option (Marker × List Char)}
    (h : nextMarker true false cs = (before, found)) :
    ∃ rest, cs = before ++ rest ∧ markerAt true false rest = found ∧ (found = none → rest = []) ∧
      ∀ parts, Reads rest parts → Reads cs (before.map plain ++ parts) := by
  induction cs generalizing before with
  | nil =>
    cases h
    exact ⟨[], rfl, rfl, fun _ => rfl, fun _ hp => hp⟩
  | cons c cs ih =>
    unfold nextMarker at h
    split at h
    · next hm =>
      cases h
      exact ⟨c :: cs, rfl, hm, by rintro ⟨⟩, fun _ hp => hp⟩
    · next hm =>
      obtain ⟨rfl, hf⟩ := Prod.mk.inj h
      obtain ⟨rest, hc, hre, hen, hr⟩ := ih (Prod.ext rfl hf)
      refine ⟨rest, congrArg (c :: ·) hc, hre, hen, fun parts hp => ?_⟩
      refine .plain ?_ ?_ (hr parts hp)
      · rintro escape rest heq
        rw [heq] at hm
        cases escape <;> cases hm
      · rintro escape rest heq
        rw [heq] at hm
        cases escape <;> cases hm

/-- **What a scan up to a brace finds** ends before the first brace that is not nested. -/
theorem endsAtBrace_of_scan {body source after : List Char}
    (h : scanUntilChar '}' body = .ok (source, after)) : EndsAtBrace source := by
  unfold scanUntilChar scanUntil at h
  by_cases hs : ∃ text rest, body = text ++ rest ∧
      Stops (fun rest => rest.head? == some '}') {} {} text rest
  · obtain ⟨_, _, hc, hs⟩ := hs
    obtain ⟨text, rest, hc, hs, hf⟩ := exists_first_stops hc hs
    rw [scanUntilFrom_of_first hc hs hf] at h
    obtain ⟨rfl, rfl⟩ := Prod.mk.inj (Except.ok.inj h)
    obtain ⟨t, ht, ho⟩ := hs.reached
    refine ⟨⟨t, ht, by simpa [State.isNesting] using ho⟩, ?_⟩
    rintro front back hte ⟨u, hu, hcl⟩
    -- a brace before the end at which nothing is open would have come first
    have hea : Stops (fun rest => rest.head? == some '}') {} {} front ('}' :: back ++ rest) :=
      ⟨by simp, by simp, u, hu, by simp [State.isNesting, hcl]⟩
    have hp := hf front _ (by rw [hc, ← append_assoc, ← hte]; rfl) hea
    have hl := hp.length_le
    rw [show text = front ++ '}' :: back from hte, length_append, length_cons] at hl
    omega
  · rw [scanUntilFrom_of_never fun text rest hc h => hs ⟨text, rest, hc, h⟩] at h
    cases hsc : scanFrom {} ({} : State).taken body <;> rw [hsc] at h <;> cases h

end TextPart

/-! ## Tokens of a text -/

/-- The lexer has added tokens of these kinds, and has read nothing. -/
structure Lexer.Adds (s : Lexer) (kinds : List TokenKind) (t : Lexer) : Prop where
  rest : t.rest = s.rest
  indents : t.indents = s.indents
  interpolating : t.interpolating = s.interpolating
  ended : t.ended = s.ended
  tokens : t.tokens.map Token.kind = kinds.reverse ++ s.tokens.map Token.kind

theorem Lexer.Adds.trans {s t u : Lexer} {kinds more : List TokenKind} (h : s.Adds kinds t)
    (h' : t.Adds more u) : s.Adds (kinds ++ more) u :=
  ⟨h'.rest.trans h.rest, h'.indents.trans h.indents, h'.interpolating.trans h.interpolating,
    h'.ended.trans h.ended, by rw [h'.tokens, h.tokens, reverse_append, append_assoc]⟩

namespace TextPart

def plainKinds (text : List Char) : List TokenKind :=
  if text.isEmpty then [] else [.text (String.ofList text)]

theorem adds_pushSomeText (s : Lexer) (text : List Char) :
    s.Adds (plainKinds text) (s.pushSomeText .plain text) := by
  unfold Lexer.pushSomeText plainKinds
  split <;> exact ⟨rfl, rfl, rfl, rfl, rfl⟩

theorem splits_plainKinds (text : List Char) : Splits text [] (plainKinds text) := by
  unfold plainKinds
  split
  · next hem =>
    obtain rfl := isEmpty_iff.mp hem
    exact ⟨by simp, rfl, rfl, .nil⟩
  · exact ⟨by simp [TokenKind.isPlainText], by simp [TokenKind.shown], rfl, .singleton _⟩

theorem Splits.code {before source : List Char} {escape : Bool} {parts : List TextPart}
    {kinds : List TokenKind} (h : Splits [] parts kinds) :
    Splits before (code escape source :: parts) (plainKinds before ++
      .interpolatedCode (String.ofList source) escape true :: kinds) := by
  have hp := splits_plainKinds before
  constructor
  · intro kind hk
    rcases mem_append.mp hk with hk | hk
    · exact hp.pieces kind hk
    rcases mem_cons.mp hk with rfl | hk
    · exact .inr ⟨_, _, rfl⟩
    · exact h.pieces kind hk
  · have hs := hp.shown
    have hr := h.shown
    simp [hs, hr, TokenKind.shown, TextPart.shown]
  · rw [filterMap_append, hp.codes]
    simp [TokenKind.code?, code?, h.codes]
  · unfold plainKinds
    split
    · cases kinds with
      | nil => exact .singleton _
      | cons kind kinds => exact .cons_cons (by simp [TokenKind.isPlainText]) h.apart
    · refine .cons_cons (by simp [TokenKind.isPlainText]) ?_
      cases kinds with
      | nil => exact .singleton _
      | cons kind kinds => exact .cons_cons (by simp [TokenKind.isPlainText]) h.apart

variable {front : List Char} {parts : List TextPart} {kinds : List TokenKind}

theorem Splits.plain (before : List Char) (h : Splits (front ++ before) parts kinds) :
    Splits front (before.map plain ++ parts) kinds := by
  have hb : (before.map TextPart.plain).flatMap TextPart.shown = before := by
    simp [flatMap_map, TextPart.shown]
  have hc : (before.map TextPart.plain).filterMap code? = [] := by
    simp [filterMap_map, code?]
  refine ⟨h.pieces, ?_, ?_, h.apart⟩
  · rw [h.shown, flatMap_append, hb, append_assoc]
  · rw [h.codes, filterMap_append, hc, nil_append]

theorem Splits.literal {escape : Bool} (h : Splits (front ++ [codeSigil escape, '{']) parts kinds) :
    Splits front (literal escape :: parts) kinds :=
  ⟨h.pieces, by rw [h.shown]; simp [TextPart.shown], h.codes, h.apart⟩

variable {env : Setting}

theorem ensures_addCode (escape : Bool) (body : List Char) (s : Lexer) :
    Ensures (env.addCode escape body s) fun out => ∃ source, EndsAtBrace source ∧
      body = source ++ '}' :: out.1 ∧
      s.Adds [.interpolatedCode (String.ofList source) escape true] out.2 := by
  unfold Setting.addCode
  split
  · next source after hs =>
    refine Ensures.any.bind fun _ _ => .ok ⟨source, endsAtBrace_of_scan hs, ?_, ?_⟩
    · obtain ⟨rest, rfl, hb⟩ := scanUntilChar_cut hs
      exact hb
    · exact ⟨rfl, rfl, rfl, rfl, rfl⟩
  · exact .error
  · exact .error

/-- **The tokens of a text.** The induction is on the steps: each of them reads plain text up to a
marker, and the marker with what belongs to it. -/
theorem splits_addTextSteps (hi : env.interpolated = false) (n : Nat) (front : List Char)
    (shifted : Bool) {text : List Char} {s : Lexer} (hs : s.interpolating)
    (hn : text.length < n) (ht : ¬['#', '['] <:+: text) :
    Ensures (env.addTextSteps .plain n front shifted text s) fun t =>
      ∃ kinds parts, Reads text parts ∧ Splits front parts kinds ∧ s.Adds kinds t := by
  induction n generalizing front shifted text s with
  | zero => exact absurd hn (Nat.not_lt_zero _)
  | succ n ih =>
    unfold Setting.addTextSteps
    rw [hs, hi]
    rcases hm : nextMarker true false text with ⟨before, found⟩
    obtain ⟨rest, rfl, hf, hen, hr⟩ := reads_nextMarker hm
    cases found with
    | none =>
      obtain rfl := hen rfl
      have hsp := (splits_plainKinds (front ++ before)).plain before
      exact .ok ⟨_, _, hr [] .nil, hsp, adds_pushSomeText s _⟩
    | some found =>
      obtain ⟨marker, after⟩ := found
      have ht' : ¬['#', '['] <:+: rest := fun h => ht (h.trans (suffix_append ..).isInfix)
      have hsu (cs) : rest = cs ++ after → ¬['#', '['] <:+: after := fun hcs h =>
        ht' (h.trans (hcs ▸ (suffix_append ..).isInfix))
      obtain ⟨escape, ⟨rfl, rfl⟩ | ⟨rfl, rfl⟩⟩ := markerAt_cases hf ht'
      · refine (ensures_addCode escape after _).bind ?_
        rintro ⟨later, u⟩ ⟨source, hso, rfl, hc⟩
        have hpu := adds_pushSomeText s (front ++ before)
        refine (ih [] false (hc.interpolating.trans (hpu.interpolating.trans hs))
          (by simp at hn; omega) ?_).mono ?_
        · exact fun h => hsu [codeSigil escape, '{'] rfl (h.trans ⟨source ++ ['}'], [], by simp⟩)
        · rintro t ⟨kinds, parts, hp, hsp, ha⟩
          refine ⟨_, _, hr _ (.code hso hp), .plain before hsp.code, ?_⟩
          simpa using (hpu.trans hc).trans ha
      · refine (ih _ false hs (by simp at hn; omega)
          (hsu ['\\', codeSigil escape, '{'] rfl)).mono ?_
        rintro t ⟨kinds, parts, hp, hsp, ha⟩
        exact ⟨_, _, hr _ (.literal hp), .plain before hsp.literal, ha⟩

end TextPart

/-! ## Lines of text -/

theorem Setting.advance_textLine {env : Setting} (hh : env.hooks = []) {s : Lexer}
    {lead text : List Char} (hl : lead = [' '] ∨ lead = ['|', ' ']) (hte : text ≠ [])
    (hli : '\n' ∉ text) (hr : s.rest = lead ++ text) :
    env.advance s = Prod.mk true <$>
      env.addText .plain text ((s.consume (lead.length + text.length)).advanceColumn lead.length) := by
  have hf : env.rules.filter (·.1.fits s.rest) = [(.text, env.text)] := by
    rw [hr]
    rcases hl with rfl | rfl <;> rfl
  have hw : Pattern.line text = text := by
    refine takeWhile_eq_self_iff.mpr fun c hc => ?_
    simp only [Pattern.isOnLine, bne_iff_ne, ne_eq]
    rintro rfl
    exact hli hc
  refine advance_eq hh [] _ hf (by simp) ?_ ?_
  · rcases hl with rfl | rfl <;> simp [Setting.text, textLine?, hr, hw, hte]
  · intro t ht
    cases ha : env.addText .plain text
        ((s.consume (lead.length + text.length)).advanceColumn lead.length) with
    | error d | ok u => simp [ha] at ht

/-- **Code splits text without loss.** A line of text after a pipe, without tags in it, is read from
left to right: its tokens are its plain text and its code in this order, and no text follows another
one. Each code ends before the first brace that is not nested. -/
theorem tokenize_piped {file : Option String} {validator : Validator} {text : String}
    {tokens : List Token} (htext : text ≠ "") (hline : '\n' ∉ text.toList ∧ '\r' ∉ text.toList)
    (htag : ¬['#', '['] <:+: text.toList)
    (h : tokenize { file, validator } ("| " ++ text) = .ok tokens) :
    ∃ kinds parts, tokens.map Token.kind = kinds ++ [.eos] ∧
      TextPart.Reads text.toList parts ∧ TextPart.Splits [] parts kinds := by
  let env : Setting := ({ file, validator } : Setting).nesting maxInterpolationDepth
  have hhooks : env.hooks = [] := Setting.hooks_nesting _ _
  have hinterpolated : env.interpolated = false := Setting.interpolated_nesting _ _
  have hsource : normalize ("| " ++ text) = '|' :: ' ' :: text.toList := by
    have hunified : '\r' ∉ '|' :: ' ' :: text.toList := by simpa using hline.2
    rw [normalize, String.toList_append]
    exact unifyLineEnds_eq hunified
  let start : Lexer := { rest := '|' :: ' ' :: text.toList }
  let inside : Lexer := (start.consume (2 + text.toList.length)).advanceColumn 2
  have hempty : inside.rest = [] := by
    simp [inside, start, Lexer.consume, Lexer.advanceColumn, Nat.add_comm 2]
  have hrun : env.run start =
      env.addText .plain text.toList inside >>= env.runSteps start.rest.length := by
    rw [Setting.run, Setting.runSteps_succ hhooks rfl,
      Setting.advance_textLine hhooks (.inr rfl) (by simpa using htext) hline.1 rfl,
      map_eq_pure_bind, bind_assoc]
    rfl
  rw [tokenize, hsource, show Setting.run _ _ = _ from hrun] at h
  cases hadd : env.addText .plain text.toList inside with
  | error d =>
    rw [hadd] at h
    cases h
  | ok t =>
    obtain ⟨kinds, parts, hreads, hsplits, hadds⟩ :=
      TextPart.splits_addTextSteps hinterpolated _ [] false rfl (Nat.lt_succ_self _) htag t hadd
    -- nothing is left behind the line
    have hend : (.ok t >>= env.runSteps start.rest.length) =
        .ok { t.push .eos with ended := true } := by
      show env.runSteps _ t = _
      rw [List.length_cons, Setting.runSteps_succ hhooks hadds.ended,
        Setting.advance_eos hhooks hinterpolated (hadds.rest.trans hempty), hadds.indents]
      rfl
    rw [hadd, hend] at h
    cases h
    refine ⟨kinds, parts, ?_, hreads, hsplits⟩
    have htokens := congrArg List.reverse hadds.tokens
    simpa [start, inside, Lexer.push, Lexer.pushAt, Lexer.consume, Lexer.advanceColumn] using htokens

/-- A literal, code with a brace in a string, and code right behind it. -/
theorem tokenize_piped_brace :
    let text := "\\#\x7ba #\x7b'\x7d'\x7d!\x7bb\x7d"
    let kinds : List TokenKind :=
      [.text "#\x7ba ", .interpolatedCode "'\x7d'" true true, .interpolatedCode "b" false true]
    ¬['#', '['] <:+: text.toList ∧ ∃ tokens parts,
      tokenize { validator := fun _ => none } ("| " ++ text) = .ok tokens ∧
      tokens.map Token.kind = kinds ++ [.eos] ∧
      TextPart.Reads text.toList parts ∧ TextPart.Splits [] parts kinds := by
  intro text kinds
  have htag : ¬['#', '['] <:+: text.toList := by decide +kernel
  have hread : (tokenize { validator := fun _ => none } ("| " ++ text)).toOption.map
      (·.map Token.kind) = some (kinds ++ [.eos]) := by decide +kernel
  cases htokens : tokenize { validator := fun _ => none } ("| " ++ text) with
  | error d => simp [htokens, Except.toOption] at hread
  | ok tokens =>
    have hkinds : tokens.map Token.kind = kinds ++ [.eos] := by
      simpa [htokens, Except.toOption] using hread
    obtain ⟨found, parts, hfound, hreads, hsplits⟩ :=
      tokenize_piped (by decide +kernel) (by decide +kernel) htag htokens
    obtain rfl : kinds = found := List.append_cancel_right (hkinds.symm.trans hfound)
    exact ⟨htag, tokens, parts, rfl, hkinds, hreads, hsplits⟩

end PugTemplate
