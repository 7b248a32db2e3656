import PugTemplate.Proofs.Script.Ranges
/-!
# Balanced texts

Texts in which every bracket is closed, where brackets inside of strings, templates and block comments
do not count. They leave nothing open, so the bracket around such a text is found.
-/

namespace PugTemplate

open List
namespace Nesting

open Script (isCode levelsAfter readBlockComment)

/-- A character of a string or a template, alone or behind a backslash. -/
inductive LiteralPart where
  | plain (c : Char)
  | escaped (c : Char)
  deriving DecidableEq, Repr

namespace LiteralPart

def chars : LiteralPart → List Char
  | plain c => [c]
  | escaped c => ['\\', c]

/-- The part does not end a literal with these quotes. -/
def isInside (quote : Char) : LiteralPart → Bool
  | plain c => c != quote && c != '\\'
  | escaped _ => true

end LiteralPart

/-- The characters that open or close something, or may do so together with the next one. -/
def delimiters : List Char := ['(', ')', '[', ']', '{', '}', '\'', '"', '\x60', '/']

/-- Texts in which every bracket is closed. A template has no substitution in it, and a block comment
does not start with a slash, which would end it at once. -/
inductive Balanced : List Char → Prop where
  | nil : Balanced []
  | char {c : Char} (hc : c ∉ delimiters) : Balanced [c]
  | string {quote : Char} {parts : List LiteralPart} (hquote : quote = '\'' ∨ quote = '"')
      (hparts : ∀ p ∈ parts, p.isInside quote = true) :
      Balanced ([quote] ++ (parts.flatMap LiteralPart.chars ++ [quote]))
  | template {parts : List LiteralPart} (hparts : ∀ p ∈ parts, p.isInside '\x60' = true)
      (hsign : ¬[LiteralPart.plain '$', .plain '{'] <:+: parts) :
      Balanced (['\x60'] ++ (parts.flatMap LiteralPart.chars ++ ['\x60']))
  | comment {body : List Char} (hstart : body.head? ≠ some '/') (hend : ¬['*', '/'] <:+: body) :
      Balanced ('/' :: '*' :: body ++ ['*', '/'])
  | append {b b' : List Char} (hb : Balanced b) (hb' : Balanced b') : Balanced (b ++ b')
  | bracket {opener closer : Char} {b : List Char} (hpair : Setting.closer? opener = some closer)
      (hb : Balanced b) : Balanced ([opener] ++ (b ++ [closer]))

theorem closer?_eq_some {opener closer : Char} (h : Setting.closer? opener = some closer) :
    opener = '(' ∧ closer = ')' ∨ opener = '[' ∧ closer = ']' ∨ opener = '{' ∧ closer = '}' := by
  unfold Setting.closer? at h
  split at h <;> cases h <;> simp

namespace State

variable {s : State} {levels after : List Context} {t : Trail} {cs : List Char}
  {parts : List LiteralPart}

/-- The characters lead to these levels, and neither a slash nor a dollar sign waits for the next
character. -/
def Passes (s : State) (cs : List Char) (levels : List Context) : Prop :=
  ∃ t : Trail, s.Leads cs levels false t ∧ t.afterSlash = false ∧ t.dollar = false

theorem Leads.passes {escaped : Bool} (h : s.Leads cs levels escaped t) (ds : List Char)
    (h' : ∀ next : State, next.Shows levels escaped t → next.Passes ds after) :
    s.Passes (cs ++ ds) after := by
  obtain ⟨mid, hm, hs⟩ := h
  obtain ⟨t', ⟨next, hn, hs'⟩, hen⟩ := h' mid hs
  exact ⟨t', ⟨next, by rw [pushAll_append, hm, Option.bind_some, hn], hs'⟩, hen⟩

theorem passes_stringParts {level : Context} {quote : Char} (hq : Quoted level quote)
    (hre : level ≠ .regex) (hl : ∀ outer ∈ levels, outer.isEnclosing)
    (hpa : ∀ p ∈ parts, p.isInside quote) (hs : s.Shows (level :: levels) false t)
    (hd : t.dollar = false) :
    s.Passes (parts.flatMap LiteralPart.chars ++ [quote]) levels := by
  induction parts generalizing s t with
  | nil =>
    refine ⟨_, leads_quoted_end hq hs hl, ?_, hd⟩
    cases hq with
    | regex => exact absurd rfl hre
    | _ => rfl
  | cons p parts ih =>
    obtain ⟨hp, hr⟩ := forall_mem_cons.mp hpa
    cases p with
    | plain c =>
      simp only [LiteralPart.isInside, Bool.and_eq_true, bne_iff_ne, ne_eq] at hp
      exact (leads_quoted_char hq hs hp.1 hp.2).passes _ fun _ hn => ih hr hn hd
    | escaped c =>
      exact (leads_quoted_escape hq hs c).passes _ fun _ hn => ih hr hn hd

/-- A template without substitutions is left at its end. A dollar sign is remembered only for the
character behind it. -/
theorem passes_templateParts (hl : ∀ outer ∈ levels, outer.isEnclosing)
    (hpa : ∀ p ∈ parts, p.isInside '\x60')
    (hsi : ¬[LiteralPart.plain '$', .plain '{'] <:+: parts)
    (hfi : t.dollar → parts.head? ≠ some (.plain '{'))
    (hs : s.Shows (.templateQuote :: levels) false t) :
    s.Passes (parts.flatMap LiteralPart.chars ++ ['\x60']) levels := by
  induction parts generalizing s t with
  | nil => exact ⟨_, leads_letter hs hl rfl, rfl, rfl⟩
  | cons p parts ih =>
    obtain ⟨hp, hr⟩ := forall_mem_cons.mp hpa
    have hs' : ¬[LiteralPart.plain '$', .plain '{'] <:+: parts :=
      fun h => hsi (h.trans (suffix_cons p parts).isInfix)
    cases p with
    | plain c =>
      simp only [LiteralPart.isInside, Bool.and_eq_true, bne_iff_ne, ne_eq] at hp
      have hf : t.follows (.letter c) := by
        have hb : c = '{' → t.dollar = false := by
          rintro rfl
          exact Bool.eq_false_iff.mpr fun hd => hfi hd rfl
        simpa [Trail.follows, hp.2, ← imp_iff_not_or] using hb
      have hle := leads_letter hs hl hf
      rw [if_neg (by simpa using hp.1)] at hle
      refine hle.passes _ fun next hn => ih hr hs' ?_ hn
      -- a brace behind this part would make a substitution of it
      intro hd hb
      obtain rfl : c = '$' := by simpa [Trail.after] using hd
      obtain ⟨rest, rfl⟩ := head?_eq_some_iff.mp hb
      exact hsi (prefix_append [LiteralPart.plain '$', .plain '{'] rest).isInfix
    | escaped c =>
      exact (leads_escape hs hl c).passes _ fun next hn =>
        ih hr hs' (by rintro ⟨⟩) hn

end State

theorem readBlockComment_of_not_infix {body : List Char} (h : ¬['*', '/'] <:+: body) :
    readBlockComment (body ++ ['*', '/']) = some (body, []) := by
  induction body with
  | nil => rfl
  | cons c body ih =>
    rw [cons_append]
    have hr := ih fun hst => h (hst.trans (suffix_cons c body).isInfix)
    unfold readBlockComment
    split
    · next heq =>
      -- the star would be the character before a slash of the body
      obtain ⟨rfl, hs⟩ := cons.inj heq
      cases body with
      | nil => cases hs
      | cons d body =>
        cases hs
        exact absurd (prefix_append ['*', '/'] body).isInfix h
    · next heq =>
      cases heq
      rw [hr]
      rfl
    · next heq => cases heq

theorem Balanced.passes {b : List Char} (hb : Balanced b) {s : State} {levels : List Context}
    {t : Trail} (hs : s.Shows levels false t) (hco : isCode levels)
    (hl : ∀ level ∈ levels, level.isEnclosing) (hsl : t.afterSlash = false)
    (hd : t.dollar = false) : s.Passes b levels := by
  induction hb generalizing s levels t with
  | nil => exact ⟨t, hs.leads, hsl, hd⟩
  | @char c hc =>
    simp only [delimiters, mem_cons, not_mem_nil, or_false, not_or] at hc
    obtain ⟨h1, h2, h3, h4, h5, h6, h7, h8, h9, h10⟩ := hc
    have ha : levelsAfter levels c = some levels := by
      simp [levelsAfter, State.isCloser, h1, h2, h3, h4, h5, h6, h9]
    refine ⟨_, State.leads_mark hs hco hl ha ⟨h7, h8⟩ ?_, ?_, hd⟩
    · simp [Trail.follows, h10, hsl]
    · simpa [Trail.afterSlash, Trail.note] using h10
  | @string quote parts hqu hp =>
    obtain ⟨level, hq, hr⟩ : ∃ level, State.Quoted level quote ∧ level ≠ .regex := by
      rcases hqu with rfl | rfl
      · exact ⟨.singleQuote, .single, by rintro ⟨⟩⟩
      · exact ⟨.doubleQuote, .double, by rintro ⟨⟩⟩
    exact (State.leads_quote hs hco hl hq hr).passes _ fun next hn =>
      State.passes_stringParts hq hr hl hp hn hd
  | template hp hsig =>
    have ho : s.Leads ['\x60'] (.templateQuote :: levels) false (t.note ['\x60']) :=
      State.leads_mark hs hco hl rfl (by decide) (by simp [Trail.follows])
    refine ho.passes _ fun next hn =>
      State.passes_templateParts hl hp hsig (fun hsi => ?_) hn
    exact absurd (hd.symm.trans hsi) Bool.false_ne_true
  | comment hst hen =>
    have hre := readBlockComment_of_not_infix hen
    exact ⟨t, State.leads_blockComment hs hco hl hre hsl hst, hsl, hd⟩
  | append _ _ ih ih' =>
    obtain ⟨t', hle, hs', hd'⟩ := ih hs hco hl hsl hd
    exact hle.passes _ fun next hn => ih' hn hco hl hs' hd'
  | @bracket opener closer b hpa _ ih =>
    have hi : ∀ level ∈ Context.bracket closer :: levels, level.isEnclosing :=
      forall_mem_cons.mpr ⟨rfl, hl⟩
    have ho : s.Leads [opener] (.bracket closer :: levels) false (t.note [opener]) ∧
        (t.note [opener]).afterSlash = false := by
      rcases closer?_eq_some hpa with ⟨rfl, rfl⟩ | ⟨rfl, rfl⟩ | ⟨rfl, rfl⟩ <;>
        exact ⟨State.leads_mark hs hco hl rfl (by decide) (by simp [Trail.follows]), rfl⟩
    refine ho.1.passes _ fun mid hm => ?_
    obtain ⟨t', hle, -, hd'⟩ := ih hm rfl hi ho.2 hd
    refine hle.passes _ fun next hn => ?_
    rcases closer?_eq_some hpa with ⟨-, rfl⟩ | ⟨-, rfl⟩ | ⟨-, rfl⟩ <;>
      exact ⟨_, State.leads_mark hn rfl hi rfl (by decide) (by simp [Trail.follows]), rfl, hd'⟩

theorem Balanced.pushAll {b : List Char} (hb : Balanced b) :
    ∃ s, ({} : State).pushAll b = some s ∧ s.stack = [] := by
  obtain ⟨t, ⟨s, hs, hsh⟩, -⟩ :=
    @passes b hb {} [] {} ⟨rfl, rfl, rfl, rfl, rfl⟩ rfl (by simp) rfl rfl
  exact ⟨s, hs, hsh.stack⟩

/-- A closing bracket does not count inside of a balanced text: it would be refused there. -/
theorem Balanced.not_stops {text rest : List Char} (hb : Balanced (text ++ rest)) {closer : Char}
    (hc : State.isCloser closer) : ¬Stops (literal [closer]) {} {} text rest := by
  rintro ⟨hn, ha, s, hs, ho⟩
  obtain ⟨last, hl, -⟩ := hb.pushAll
  obtain ⟨c, rest, rfl⟩ := exists_cons_of_ne_nil hn
  obtain rfl : closer = c := by simpa [literal] using ha
  have hst : s.stack = [] := by simpa [State.isNesting] using ho
  rw [State.pushAll_append, hs, Option.bind_some, State.pushAll_cons,
    State.push_eq_none_of_closer hc hst] at hl
  cases hl

/-- **Brackets around balanced texts are found.** A balanced text leaves nothing open. Behind its
opening bracket, it ends at the closing one, whatever follows, and without one the search ends at the
end of the text. -/
theorem Balanced.rangeUntil_enclosed {b : List Char} (hb : Balanced b) :
    (∃ s, scan b = .ok s ∧ s.stack = []) ∧
    ∀ opener closer, Setting.closer? opener = some closer →
      (∀ trailing, rangeUntil (literal [closer]) {} 1 (opener :: (b ++ closer :: trailing)) =
        .ok ⟨1, 1 + bytes b, b⟩) ∧
      rangeUntil (literal [closer]) {} 1 (opener :: b) = .error (.unfinished (bytes (opener :: b))) := by
  obtain ⟨s, hs, hstack⟩ := hb.pushAll
  refine ⟨⟨s, State.scanFrom_eq_ok_iff.mpr hs, hstack⟩, fun opener closer hpair => ?_⟩
  obtain ⟨hcloser, hsize⟩ : State.isCloser closer = true ∧ bytes [opener] = 1 := by
    rcases closer?_eq_some hpair with ⟨rfl, rfl⟩ | ⟨rfl, rfl⟩ | ⟨rfl, rfl⟩ <;> decide
  have hrange := fun part => @rangeUntil_eq (literal [closer]) {} [opener] part
  simp only [hsize, List.singleton_append] at hrange
  have hliteral : literal [closer] = fun rest => rest.head? == some closer := by
    funext rest
    cases rest with
    | nil => rfl
    | cons c rest => simp [literal, List.isPrefixOf, BEq.comm]
  constructor
  · intro trailing
    have hfound := State.scanUntilFrom_closer hcloser trailing hs hstack
    rw [← hliteral] at hfound
    rw [hrange, hfound]
    rfl
  · have hnever : ∀ text rest, b = text ++ rest → ¬Stops (literal [closer]) {} {} text rest := by
      rintro text rest rfl
      exact hb.not_stops hcloser
    rw [hrange, scanUntilFrom_of_never hnever, State.scanFrom_eq_ok_iff.mpr hs]
    show Except.error (RangeFault.unfinished (1 + bytes b)) = _
    rw [← hsize, ← bytes_append]
    rfl

/-- Brackets in a string behind an escaped quote, in a template and in a comment. -/
theorem Balanced.rangeUntil_enclosed_call :
    Balanced "'\\')'[\x60$(\x60/*)*/]".toList ∧
    rangeUntil (literal [')']) {} 1 "('\\')'[\x60$(\x60/*)*/])é)".toList =
      .ok ⟨1, 17, "'\\')'[\x60$(\x60/*)*/]".toList⟩ := by
  have hstring : Balanced "'\\')'".toList :=
    @Balanced.string '\'' [.escaped '\'', .plain ')'] (.inl rfl) (by decide)
  have htemplate : Balanced "\x60$(\x60".toList :=
    @Balanced.template [.plain '$', .plain '('] (by decide) (by decide)
  have hcomment : Balanced "/*)*/".toList := @Balanced.comment [')'] (by decide) (by decide)
  have hbracket : Balanced "[\x60$(\x60/*)*/]".toList :=
    @Balanced.bracket '[' _ _ rfl (.append htemplate hcomment)
  have hboth := hstring.append hbracket
  exact ⟨hboth, (hboth.rangeUntil_enclosed.2 '(' ')' rfl).1 "é)".toList⟩

end Nesting
end PugTemplate
