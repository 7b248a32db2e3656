import PugTemplate.Proofs.Token.Progress
/-!
# Runs of the lexer

The rules of the lexer add tokens that close what they open. The lexer of a template opens and closes
indentations as well, and closes what is open when the template ends.
-/

namespace PugTemplate

open List Setting
namespace Setting

variable {env : Setting} {depth : Nat}

/-! ## From rules to runs -/

/-- A property that all rules keep until one of them fits, and another one that holds then. -/
theorem ensures_tryRules (hh : env.hooks = []) {P Q : Lexer → Prop}
    (rules : List (Rule × (Lexer → Step)))
    (hr : ∀ rule ∈ rules, ∀ s, P s →
      Ensures (rule.2 s) fun out => if out.1 then Q out.2 else P out.2)
    (s : Lexer) (hs : P s) : Ensures (env.tryRules rules s) fun out => Q out.2 := by
  induction rules generalizing s with
  | nil => exact .error
  | cons rule rules ih =>
    obtain ⟨hru, hr⟩ := forall_mem_cons.mp hr
    unfold tryRules
    rw [call_eq hh]
    refine .bind (hru s hs) ?_
    rintro ⟨matched, t⟩ h
    cases matched with
    | true => exact .ok h
    | false => exact ih hr t h

theorem ensures_runSteps (hh : env.hooks = []) {P : Lexer → Prop}
    (hst : ∀ s, P s → s.ended = false → Ensures (env.advance s) fun out => P out.2) (n : Nat)
    (s : Lexer) (hs : P s) : Ensures (env.runSteps n s) fun t => P t ∧ t.ended := by
  induction n generalizing s with
  | zero =>
    unfold runSteps
    split
    · exact .ok ⟨hs, ‹_›⟩
    · exact .error
  | succ n ih =>
    unfold runSteps
    split
    · exact .ok ⟨hs, ‹_›⟩
    · rename_i hen
      rw [call_eq hh]
      exact .bind (hst s hs (Bool.eq_false_iff.mpr hen)) fun out ho => ih out.2 ho

/-- Every rule moves the lexer, but for those of indentation and of the end. -/
theorem rules_cases (hh : env.hooks = []) (hn : env.Delegates depth)
    {rule : Rule × (Lexer → Step)} (hr : rule ∈ env.rules) (s : Lexer) (hs : env.Fits s) :
    rule = (.eos, env.eos) ∨ rule = (.indent, env.indent) ∨
      Ensures (rule.2 s) fun out => Moves env depth s out.2 := by
  rcases yields_rules hh hn hr s hs with h | h | rfl | ⟨-, h⟩
  · exact .inl h
  · exact .inr (.inl h)
  · exact .inr (.inr fun _ ho => ((yields_mixinCall s).of_ok ho).toMoves)
  · exact .inr (.inr fun _ ho => (h.of_ok ho).toMoves)

end Setting

/-! ## The lexer of a template -/

def brackets (indents : List Nat) : List Bracket := indents.map .indent

theorem widths_brackets (indents : List Nat) :
    (brackets indents).filterMap Bracket.width? = indents := by
  rw [brackets, filterMap_map]
  exact filterMap_some

theorem count_brackets (indents : List Nat) : (brackets indents).count .interpolation = 0 := by
  refine count_eq_zero.mpr fun h => ?_
  obtain ⟨_, _, h⟩ := mem_map.mp h
  cases h

theorem head?_brackets (indents : List Nat) : (brackets indents).head? ≠ some .attributes := by
  cases indents with
  | nil => nofun
  | cons width indents => exact fun h => absurd (Option.some.inj h) nofun

theorem pairwise_cons_of_wider {indents : List Nat} {w : Nat} (h : indents.Pairwise (· > ·))
    (hw : indents.headD 0 < w) : (w :: indents).Pairwise (· > ·) := by
  refine pairwise_cons.mpr ⟨fun v hv => ?_, h⟩
  cases indents with
  | nil => cases hv
  | cons inner outer =>
    have hi : inner < w := hw
    rcases mem_cons.mp hv with rfl | hv
    · exact hi
    · exact Nat.lt_trans ((pairwise_cons.mp h).1 v hv) hi

/-- The tokens of a template before its end, with the widths of the open indentations. The last one
comes first. -/
structure Underway (validator : Validator) (indents : List Nat) (ts : List Token) : Prop where
  nests : Nests [] ts.reverse (brackets indents)
  ne_eos : ∀ t ∈ ts, t.kind ≠ .eos
  dotsEnd : DotsEnd ts
  vouched : ∀ t ∈ ts, t.kind.Vouched validator

/-- The tokens of a template at its end. -/
structure Finished (validator : Validator) (ts : List Token) : Prop where
  nests : Nests [] ts.reverse []
  ends : ∃ last front, ts = last :: front ∧ last.kind = .eos ∧ ∀ t ∈ front, t.kind ≠ .eos
  dotsEnd : DotsEnd ts
  vouched : ∀ t ∈ ts, t.kind.Vouched validator

namespace Underway

variable {validator : Validator} {indents : List Nat} {ts new : List Token} {token : Token}
  {width : Nat}

theorem nil : Underway validator [] [] := ⟨.nil, forall_mem_nil _, .nil, forall_mem_nil _⟩

theorem proper (h : Underway validator indents ts) : Proper (brackets indents) := h.nests.proper .nil

theorem pairwise (h : Underway validator indents ts) : indents.Pairwise (· > ·) := by
  have hw := h.proper.widths
  rw [widths_brackets] at hw
  exact hw

theorem flat (h : Underway validator indents ts) (hn : Issued validator maxInterpolationDepth new)
    (hdo : DotsEnd (new.reverse ++ ts)) : Underway validator indents (new.reverse ++ ts) := by
  refine ⟨?_, ?_, hdo, ?_⟩
  · rw [reverse_append, reverse_reverse]
    have hd : (brackets indents).count .interpolation + maxInterpolationDepth ≤
        maxInterpolationDepth := by
      rw [count_brackets, Nat.zero_add]
    exact h.nests.append (hn.nests _ h.proper (head?_brackets indents) hd)
  · refine forall_mem_append.mpr ⟨fun t ht => ?_, h.ne_eos⟩
    exact hn.ne_eos t (mem_reverse.mp ht)
  · refine forall_mem_append.mpr ⟨fun t ht => ?_, h.vouched⟩
    exact hn.vouched t (mem_reverse.mp ht)

theorem push {opened : List Nat} (h : Underway validator indents ts)
    (hs : openAfter token.kind (brackets indents) = some (brackets opened))
    (ho : opened.Pairwise (· > ·)) (heo : token.kind ≠ .eos) (hd : DotsEnd (token :: ts))
    (hv : token.kind.Vouched validator) : Underway validator opened (token :: ts) := by
  have hp : Proper (brackets opened) := by
    refine ⟨?_, ?_⟩
    · rw [widths_brackets]
      exact ho
    · rw [count_brackets]
      exact Nat.zero_le _
  refine ⟨?_, forall_mem_cons.mpr ⟨heo, h.ne_eos⟩, hd, forall_mem_cons.mpr ⟨hv, h.vouched⟩⟩
  rw [reverse_cons]
  exact h.nests.append (.single hs (head?_brackets indents) hp)

theorem undotted (h : Underway validator indents ts) (hd : token.kind ≠ .dot)
    (hc : token.kind.isContent = false) : Undotted (token :: ts) :=
  h.dotsEnd.push hd hc

theorem outdent (h : Underway validator (width :: indents) ts) (at_ : Position) :
    Underway validator indents (⟨.outdent, at_⟩ :: ts) :=
  h.push rfl h.pairwise.of_cons nofun (h.undotted (by nofun) rfl).dotsEnd (.of_none ⟨rfl, rfl⟩)

theorem indent (h : Underway validator indents ts) (hw : indents.headD 0 < width)
    (at_ : Position) : Underway validator (width :: indents) (⟨.indent width, at_⟩ :: ts) :=
  h.push rfl (pairwise_cons_of_wider h.pairwise hw) nofun
    (h.undotted (by nofun) rfl).dotsEnd (.of_none ⟨rfl, rfl⟩)

theorem outdents {s : Lexer} (h : Underway validator indents s.tokens) :
    Underway validator [] (indents.foldl (fun s _ => s.push .outdent) s).tokens := by
  induction indents generalizing s with
  | nil => exact h
  | cons width indents ih => exact ih (h.outdent s.position)

theorem finish (h : Underway validator [] ts) (at_ : Position) : Finished validator (⟨.eos, at_⟩ :: ts) := by
  refine ⟨?_, ⟨_, _, rfl, rfl, h.ne_eos⟩, (h.undotted (by nofun) rfl).dotsEnd,
    forall_mem_cons.mpr ⟨.of_none ⟨rfl, rfl⟩, h.vouched⟩⟩
  rw [reverse_cons]
  exact h.nests.append (.single rfl nofun .nil)

end Underway

/-- The lexer of a template before its end. -/
structure Running (validator : Validator) (s : Lexer) : Prop where
  underway : Underway validator s.indents s.tokens
  dotted : Dotted s
  ended : s.ended = false

/-- The lexer of a template, before its end or at it. -/
def OnTemplate (validator : Validator) (s : Lexer) : Prop :=
  Running validator s ∨ s.ended = true ∧ Finished validator s.tokens

theorem Running.move {env : Setting} {s t : Lexer} (h : Running env.validator s)
    (hi : env.interpolated = false) (hm : Moves env maxInterpolationDepth s t) :
    Running env.validator t := by
  have hd := hm.dotted h.dotted
  obtain ⟨new, hn, ht⟩ := hm.tokens
  refine ⟨?_, hd, ?_⟩
  · rw [hm.indents, ht]
    exact h.underway.flat hn (ht ▸ hd.dotsEnd)
  · rcases hm.ended with hen | hen
    · exact hen.trans h.ended
    · rw [hi] at hen
      cases hen

namespace Setting

variable {env : Setting} {validator : Validator}

theorem underway_closeIndents (width : Nat) (indents : List Nat) (s : Lexer)
    (hs : s.indents = indents) (h : Underway validator indents s.tokens) (hen : s.ended = false) :
    Ensures (env.closeIndents width indents s) fun t => Underway validator t.indents t.tokens ∧
      t.ended = false ∧ (Undotted s.tokens → Undotted t.tokens) := by
  induction indents generalizing s with
  | nil => exact .ok ⟨hs ▸ h, hen, id⟩
  | cons current outer ih =>
    unfold closeIndents
    split
    · exact .ok ⟨hs ▸ h, hen, id⟩
    · dsimp only
      split
      · exact .error
      · have hn := ih ({ s with column := outer.headD 0 + 1, indents := outer }.push .outdent) rfl
          (h.outdent _) hen
        refine hn.mono ?_
        rintro t ⟨ht, he', hd⟩
        exact ⟨ht, he', fun hs => hd (hs.push (by rintro ⟨⟩))⟩

theorem undotted_closeIndents {width : Nat} {s : Lexer} (hw : width < s.indent)
    (h : Underway validator s.indents s.tokens) (hen : s.ended = false) :
    Ensures (env.closeIndents width s.indents s) fun t => Underway validator t.indents t.tokens ∧
      t.ended = false ∧ Undotted t.tokens := by
  unfold Lexer.indent at hw
  cases hs : s.indents with
  | nil =>
    rw [hs] at hw
    cases hw
  | cons current outer =>
    rw [hs] at hw h
    unfold closeIndents
    rw [if_neg (show ¬current ≤ width from Nat.not_le.mpr hw)]
    dsimp only
    split
    · exact .error
    · have hn := @underway_closeIndents env validator width outer
        ({ s with column := outer.headD 0 + 1, indents := outer }.push .outdent) rfl (h.outdent _) hen
      refine hn.mono ?_
      rintro t ⟨ht, he', hd⟩
      exact ⟨ht, he', hd (h.dotsEnd.push (by rintro ⟨⟩) rfl)⟩

theorem running_indent (s : Lexer) (h : Running validator s) :
    Ensures (env.indent s) fun out => Running validator out.2 := by
  unfold indent
  obtain ⟨style, hs⟩ := indentation?_eq s
  generalize s.indentation? = found at hs
  obtain ⟨width, t⟩ := found
  obtain rfl : t = { s with style } := hs
  dsimp only
  split
  · exact .ok ⟨h.underway, ⟨h.dotted.dotsEnd, h.dotted.last⟩, h.ended⟩
  · rename_i width
    split
    · exact .error
    · exact .error
    · rename_i hr
      refine .ok ⟨h.underway, ⟨h.dotted.dotsEnd, fun _ _ _ => ?_⟩, h.ended⟩
      exact hr ▸ by simp [AtLineEnd]
    · split
      · rename_i hw
        refine .bind (undotted_closeIndents hw h.underway h.ended) ?_
        rintro t ⟨ht, hen, hu⟩
        exact .ok ⟨ht, Undotted.dotted hu, hen⟩
      · split
        · rename_i hw
          have hu := h.dotted.dotsEnd.push (t := ⟨.indent width, ⟨s.line + 1, 1⟩⟩)
            (by rintro ⟨⟩) rfl
          exact .ok ⟨h.underway.indent hw _, Undotted.dotted hu, h.ended⟩
        · have hu := h.dotted.dotsEnd.push (t := ⟨.newline, ⟨s.line + 1, 1⟩⟩) (by rintro ⟨⟩) rfl
          exact .ok ⟨h.underway.flat (.plain rfl (.of_none ⟨rfl, rfl⟩)) hu.dotsEnd,
            Undotted.dotted hu, h.ended⟩

theorem finished_eos (hi : env.interpolated = false) (s : Lexer)
    (h : Running validator s) : Ensures (env.eos s) fun out =>
      if out.1 then out.2.ended = true ∧ Finished validator out.2.tokens
      else Running validator out.2 := by
  unfold eos
  split
  · exact .ok h
  · rw [hi]
    exact .ok ⟨rfl, h.underway.outdents.finish _⟩

theorem onTemplate_advance (hh : env.hooks = []) (hn : env.Delegates maxInterpolationDepth)
    (hi : env.interpolated = false) (s : Lexer)
    (hs : Running env.validator s) :
    Ensures (env.advance s) fun out => OnTemplate env.validator out.2 := by
  refine ensures_tryRules hh env.rules (fun rule hr s hs => ?_) s hs
  have hk : ∀ out : Bool × Lexer, Running env.validator out.2 →
      if out.1 then OnTemplate env.validator out.2 else Running env.validator out.2 := by
    intro out h
    split
    · exact .inl h
    · exact h
  have hf : env.Fits s := fun h => absurd (hi.symm.trans h) Bool.false_ne_true
  rcases rules_cases hh hn hr s hf with rfl | rfl | h
  · refine (finished_eos hi s hs).mono fun out ho => ?_
    split at ho
    · rw [if_pos ‹_›]
      exact .inr ho
    · exact hk out ho
  · exact (running_indent s hs).mono hk
  · exact h.mono fun out hm => hk out (hs.move hi hm)

end Setting

theorem finished_tokenize {file : Option String} {validator : Validator} {source : String} :
    Ensures (tokenize { file, validator } source) fun tokens =>
      Finished validator tokens.reverse := by
  let env : Setting := { file, validator }
  have hh : (env.nesting maxInterpolationDepth).hooks = [] := hooks_nesting env _
  have hn := @delegates_nesting env rfl maxInterpolationDepth
  have hst : OnTemplate (env.nesting maxInterpolationDepth).validator
      { rest := normalize source } := .inl ⟨.nil, ⟨.nil, nofun⟩, rfl⟩
  refine .bind (ensures_runSteps hh (fun s hs hen => ?_) _ _ hst) fun t ht => .ok ?_
  · rcases hs with hs | ⟨hs, -⟩
    · exact onTemplate_advance hh hn (interpolated_nesting env _) s hs
    · rw [hen] at hs
      cases hs
  · rw [reverse_reverse]
    rcases ht with ⟨ht | ht, hen⟩
    · rw [ht.ended] at hen
      cases hen
    · exact ht.2

/-- **The tokens of a template** keep the rules for brackets. -/
theorem tokenize_wellBracketed {file : Option String} {validator : Validator} {source : String}
    {tokens : List Token} (h : tokenize { file, validator } source = .ok tokens) :
    WellBracketed tokens := by
  have hfinished := finished_tokenize tokens h
  obtain ⟨last, front, htokens, hlast, hfront⟩ := hfinished.ends
  rw [List.reverse_eq_cons_iff] at htokens
  refine Nests.wellBracketed (List.reverse_reverse tokens ▸ hfinished.nests) ?_
  exact ⟨front.reverse, last, htokens, hlast, fun t ht => hfront t (List.mem_reverse.mp ht)⟩

/-- A list with attributes, an interpolated tag and a block of text. -/
theorem tokenize_wellBracketed_list :
    let source := "ul\n  li(a='b') x #[em y]\n  p.\n    z"
    ∃ tokens, tokenize { validator := fun _ => none } source = .ok tokens ∧
      WellBracketed tokens := by
  intro source
  have hok : (tokenize { validator := fun _ => none } source).isOk = true := by decide +kernel
  cases h : tokenize { validator := fun _ => none } source with
  | error d =>
    rw [h] at hok
    cases hok
  | ok tokens => exact ⟨tokens, rfl, tokenize_wellBracketed h⟩

/-- **Expressions before more code.** What a tag or a text encloses leaves nothing open. What is
spliced comes from an accepted expression, and a comment is open at its end exactly if a line comment
is the last piece of that expression, as long as the expression has no markup and each piece of it is
taken for what it is. -/
theorem tokenize_splices {parse : Script.Parser} (hlexical : parse.Lexical) {file : Option String}
    {source : String} {tokens : List Token}
    (h : tokenize { file, validator := parse.validator } source = .ok tokens) {token : Token}
    (htoken : token ∈ tokens) :
    (∀ text, token.kind.enclosed? = some text →
      ∃ s, Nesting.scan text.toList = .ok s ∧ s.stack = [] ∧ s.isComment = false) ∧
    ∀ text, token.kind.spliced? = some text →
      ∃ e, parse.validator.accepts e = true ∧ Script.Splices e text ∧
        (parse.isPlain e = true → ({} : Nesting.Trail).followsAll (parse.pieces e) = true →
          ∃ s, Nesting.scan text.toList = .ok s ∧
            s.isComment = Script.endsInLineComment (parse.pieces e)) := by
  have hvouched := (finished_tokenize tokens h).vouched token (List.mem_reverse.mpr htoken)
  constructor
  · intro text htext
    obtain ⟨s, hs, hstack⟩ := hvouched.enclosed text htext
    exact ⟨s, hs, hstack, Nesting.State.isComment_of_enclosing hstack (by simp)⟩
  · intro text htext
    obtain ⟨e, haccepts, hsplices⟩ := hvouched.spliced text htext
    exact ⟨e, haccepts, hsplices, Script.scan_of_splices hlexical hsplices haccepts⟩

open Script.Syntax in
def commentedQuotient : Script.Syntax :=
  wrapped "a / b // c" [.node { kind := "binary_expression", text := "a / b", start := 1 }
    [leaf "identifier" "a" 1, mark "/" 3, leaf "identifier" "b" 5], leaf "comment" "// c" 7]

/-- The comment is open behind a buffered quotient. -/
theorem tokenize_splices_quotient :
    let parse := Script.Parser.only (Script.wrap "a / b // c") commentedQuotient
    ∃ tokens, tokenize { validator := parse.validator } "p= a / b // c" = .ok tokens ∧
      ∃ token ∈ tokens, token.kind.spliced? = some "a / b // c" ∧
        ∃ s, Nesting.scan "a / b // c".toList = .ok s ∧ s.isComment = true := by
  intro parse
  have hlexical : parse.Lexical :=
    Script.Parser.lexical_only (by decide +kernel) (by decide +kernel)
  have hany : (tokenize { validator := parse.validator } "p= a / b // c").toOption.map
      (·.any (·.kind == .code "a / b // c" true true)) = some true := by
    decide +kernel
  cases h : tokenize { validator := parse.validator } "p= a / b // c" with
  | error d =>
    rw [h] at hany
    cases hany
  | ok tokens =>
    rw [h] at hany
    obtain ⟨token, htoken, hkind⟩ := List.any_eq_true.mp (Option.some.inj hany)
    have hspliced : token.kind.spliced? = some "a / b // c" := by rw [beq_iff_eq.mp hkind]; rfl
    obtain ⟨e, haccepts, -, hscan⟩ := (tokenize_splices hlexical h htoken).2 _ hspliced
    obtain rfl := Script.Parser.eq_of_accepts_only haccepts
    obtain ⟨s, hs, hcomment⟩ := hscan (by decide +kernel) (by decide +kernel)
    refine ⟨tokens, rfl, token, htoken, hspliced, s, hs, hcomment.trans ?_⟩
    decide +kernel

def commentedName : Script.Syntax :=
  .wrapped "a // x" [.leaf "identifier" "a" 1, .leaf "comment" "// x" 3]

/-- A condition that ends in a line comment is accepted, since a line break is read behind it. The
comment is still open where more code is written behind the condition. -/
theorem condition_in_comment :
    ∃ parse : Script.Parser, parse.Lexical ∧
      (tokenize { validator := parse.validator } "if a // x\n  p").toOption.map (·.map Token.kind) =
        some [.if "a // x", .indent 2, .tag "p", .outdent, .eos] ∧
      (Nesting.scan "a // x".toList).toOption.map (·.isComment) = some true :=
  ⟨.only (Script.wrap "a // x") commentedName,
    Script.Parser.lexical_only (by decide +kernel) (by decide +kernel), by decide +kernel⟩

end PugTemplate
