import PugTemplate.Proofs.Token.Cuts
/-!
# Rules that fit the front of a text

A rule of the lexer reads only texts that start in certain ways: with one of its words, or with the
name of a tag. So the front of the text tells which rules are worth trying. At the parts of a plain
line there is one that reads.
-/

namespace PugTemplate

open List Pattern Option Lexer

/-! ## The front of a text -/

/-- The words that what a rule reads can start with. -/
def Rule.words : Rule → List String
  | .blank => ["\n"]
  | .endInterpolation => ["]"]
  | .yield => ["yield"]
  | .doctype => ["doctype"]
  | .interpolation => ["#"]
  | .case => ["case"]
  | .when => ["when"]
  | .default => ["default"]
  | .extends => ["extend"]
  | .append => ["append", "block"]
  | .prepend => ["prepend", "block"]
  | .block => ["block"]
  | .mixinBlock => ["block"]
  | .include => ["include"]
  | .mixin => ["mixin"]
  | .call => ["+"]
  | .conditional => ["if", "unless", "else"]
  | .each => ["each", "for", "-"]
  | .while => ["while"]
  | .filter _ => [":"]
  | .blockCode => ["-"]
  | .code => ["!=", "=", "-"]
  | .id => ["#"]
  | .dot => ["."]
  | .className => ["."]
  | .attributes => ["("]
  | .spreadAttributes => ["&attributes"]
  | .indent => ["\n"]
  | .text => ["|", " "]
  | .textHtml => ["<"]
  | .comment => ["//"]
  | .slash => ["/"]
  | .colon => [":"]
  | _ => []

def Rule.fits (rule : Rule) (cs : List Char) : Bool :=
  match rule with
  | .eos => cs.isEmpty
  | .tag => (Pattern.tagName? cs).isSome
  | rule => rule.words.any fun word => (Pattern.afterWord? word cs).isSome

/-- The words that other rules than the one for tags may read. -/
def keywords : List String :=
  ["doctype", "yield", "case", "when", "default", "extend", "append", "prepend", "block", "include",
    "mixin", "if", "unless", "else", "each", "for", "while"]

/-! ## Rules that do not fit -/

namespace Setting

variable {env : Setting} {s : Lexer} {word : String} {cs name text : List Char}
  {rule : Rule × (Lexer → Step)} {more : List (Rule × (Lexer → Step))} {out : Step}

theorem loneWord_eq (kind : TokenKind) (h : afterWord? word s.rest = none) :
    loneWord word kind s = (false, s) := by
  unfold loneWord
  rw [h]

theorem wordValue?_eq_none (isPart : Char → Bool) (h : afterWord? word s.rest = none) :
    wordValue? word isPart s = none := by
  unfold wordValue?
  rw [h]
  rfl

theorem namedBlock_eq {content : List Char → Option (List Char)} (mode : BlockMode)
    (h : content s.rest = none) : namedBlock content mode s = .ok (false, s) := by
  unfold namedBlock
  rw [h]

theorem conditional_eq (hi : afterWord? "if" s.rest = none) (hu : afterWord? "unless" s.rest = none)
    (hel : afterWord? "else" s.rest = none) : env.conditional s = .ok (false, s) := by
  have hl : afterWord? "else if" s.rest = none :=
    afterWord?_none_of_prefix (by decide) hel
  unfold conditional conditionWords
  simp only [find?, atKeyword_eq_false, hi, hu, hel, hl]

theorem extendsPath_eq (h : afterWord? "extend" s.rest = none) :
    env.extendsPath s = .ok (false, s) := by
  have hl : afterWord? "extends" s.rest = none :=
    afterWord?_none_of_prefix (by decide) h
  unfold extendsPath
  simp only [hl, h, isSome_none, Bool.false_eq_true, if_false]

theorem each_eq (hea : afterWord? "each" s.rest = none) (hf : afterWord? "for" s.rest = none)
    (hda : afterWord? "-" s.rest = none) : env.each s = .ok (false, s) := by
  have hh : loopHead? s.rest = none := by
    unfold loopHead?
    rw [hea, hf]
    rfl
  have hd : atDashedEach s.rest = false := by
    unfold atDashedEach
    split
    · rename_i hr
      rw [hr] at hda
      exact absurd hda (some_ne_none _)
    · rfl
  unfold each
  simp only [hh, hd, atKeyword_eq_false hea, atKeyword_eq_false hf,
    Bool.or_self, Bool.false_eq_true, if_false]

theorem codeMarks?_eq_none (hr : afterWord? "!=" cs = none)
    (heq : afterWord? "=" cs = none) (hd : afterWord? "-" cs = none) :
    codeMarks? cs = none := by
  unfold codeMarks?
  split
  · exact absurd hr (some_ne_none _)
  · exact absurd heq (some_ne_none _)
  · exact absurd hd (some_ne_none _)
  · rfl

theorem indentation?_eq_none (h : afterWord? "\n" s.rest = none) : s.indentation? = (none, s) := by
  unfold indentation?
  split
  · rename_i hr
    exact absurd (hr ▸ h) (some_ne_none _)
  · rfl

theorem textLine?_eq_none (hp : afterWord? "|" cs = none)
    (hs : afterWord? " " cs = none) : textLine? cs = none := by
  unfold textLine?
  split
  · exact absurd hp (some_ne_none _)
  · exact absurd hs (some_ne_none _)
  · rfl

/-- **Rules and their words.** A rule that does not fit the front of the text leaves it alone. -/
theorem declines (hru : rule ∈ env.rules) (hf : rule.1.fits s.rest = false) :
    rule.2 s = .ok (false, s) := by
  simp only [rules, mem_cons, not_mem_nil, or_false] at hru
  rcases hru with rfl | rfl | rfl | rfl | rfl | rfl | rfl | rfl | rfl | rfl | rfl | rfl | rfl |
    rfl | rfl | rfl | rfl | rfl | rfl | rfl | rfl | rfl | rfl | rfl | rfl | rfl | rfl | rfl | rfl |
    rfl | rfl | rfl | rfl | rfl | rfl
  all_goals
    simp only [Rule.fits, Rule.words, any_cons, any_nil, Bool.or_false,
      Bool.or_eq_false_iff, isSome_eq_false_iff, isNone_iff_eq_none] at hf
    dsimp only
  · unfold blank
    split
    · rename_i hr
      exact absurd (hr ▸ hf) (some_ne_none _)
    · rfl
  · unfold eos
    rw [hf]
    rfl
  · unfold endInterpolation
    split
    · rename_i hr
      exact absurd (hr ▸ hf) (some_ne_none _)
    · rfl
  · exact congrArg Except.ok (loneWord_eq _ hf)
  · unfold doctype
    rw [hf]
  · unfold interpolation
    split
    · rename_i hr
      exact absurd (hr ▸ hf) (some_ne_none _)
    · rfl
  · unfold case
    rw [wordValue?_eq_none _ hf, atKeyword_eq_false hf]
    rfl
  · unfold when
    rw [wordValue?_eq_none _ hf, atKeyword_eq_false hf]
    rfl
  · unfold defaultCase
    rw [loneWord_eq _ hf]
    dsimp only
    rw [atKeyword_eq_false hf]
    rfl
  · exact extendsPath_eq hf
  · exact namedBlock_eq _ (blockCommand?_eq_none hf.1 hf.2)
  · exact namedBlock_eq _ (blockCommand?_eq_none hf.1 hf.2)
  · exact namedBlock_eq _ (blockLine?_eq_none hf)
  · exact congrArg Except.ok (loneWord_eq _ hf)
  · unfold includeFile
    rw [hf]
  · unfold mixin mixinHead?
    rw [hf]
    rfl
  · unfold mixinCall callName
    split
    · rename_i hr
      exact absurd (hr ▸ hf) (some_ne_none _)
    · rfl
  · exact conditional_eq hf.1 hf.2.1 hf.2.2
  · exact each_eq hf.1 hf.2.1 hf.2.2
  · unfold whileLoop
    rw [wordValue?_eq_none _ hf, atKeyword_eq_false hf]
    rfl
  · unfold tag
    rw [hf]
  · unfold filter
    split
    · rename_i hr
      exact absurd (hr ▸ hf) (some_ne_none _)
    · rfl
  · unfold blockCode
    rw [loneWord_eq _ hf]
  · unfold code
    rw [codeMarks?_eq_none hf.1 hf.2.1 hf.2.2]
  · unfold idName
    split
    · rename_i hr
      exact absurd (hr ▸ hf) (some_ne_none _)
    · rfl
  · unfold dot
    rw [loneWord_eq _ hf]
  · unfold className
    split
    · rename_i hr
      exact absurd (hr ▸ hf) (some_ne_none _)
    · rfl
  · unfold attributes
    split
    · rename_i hr
      exact absurd (hr ▸ hf) (some_ne_none _)
    · rfl
  · unfold spreadAttributes
    rw [atKeyword_eq_false hf]
    rfl
  · unfold indent
    rw [indentation?_eq_none hf]
  · unfold text
    rw [textLine?_eq_none hf.1 hf.2]
  all_goals
    first | unfold textHtml | unfold comment | unfold slash | unfold colon
    split
    · rename_i hr
      exact absurd (hr ▸ hf) (some_ne_none _)
    · rfl

/-! ## The rule that reads -/

theorem call_eq (hh : env.hooks = []) (rule : Rule) (own : Lexer → Step) (s : Lexer) :
    env.call rule own s = own s := by
  unfold call offer
  rw [hh]
  rfl

/-- **The rule that reads.** Of the rules that fit the front of the text, some decline; the next one
tells the result. -/
theorem tryRules_eq (hh : env.hooks = []) {rules : List (Rule × (Lexer → Step))}
    (hr : rules ⊆ env.rules) {skipped : List (Rule × (Lexer → Step))}
    (hf : rules.filter (·.1.fits s.rest) = skipped ++ rule :: more)
    (hs : ∀ other ∈ skipped, other.2 s = .ok (false, s)) (hru : rule.2 s = out)
    (hou : ∀ t, out ≠ .ok (false, t)) : env.tryRules rules s = out := by
  induction rules generalizing skipped with
  | nil => simp at hf
  | cons first rules ih =>
    obtain ⟨hfi, hr⟩ := cons_subset.mp hr
    unfold tryRules
    rw [call_eq hh]
    rw [filter_cons] at hf
    split at hf
    · cases skipped with
      | nil =>
        cases hf
        rw [hru]
        match out, hou with
        | .error _, _ => rfl
        | .ok (true, _), _ => rfl
        | .ok (false, t), hou => exact absurd rfl (hou t)
      | cons other skipped =>
        obtain ⟨rfl, ht⟩ := cons.inj hf
        obtain ⟨hot, ho⟩ := forall_mem_cons.mp hs
        rw [hot]
        exact ih hr ht ho
    · rename_i hfit
      rw [declines hfi (Bool.eq_false_iff.mpr hfit)]
      exact ih hr hf hs

theorem advance_eq (hh : env.hooks = []) (skipped : List (Rule × (Lexer → Step)))
    (rule : Rule × (Lexer → Step))
    (hf : env.rules.filter (·.1.fits s.rest) = skipped ++ rule :: more)
    (hs : ∀ other ∈ skipped, other.2 s = .ok (false, s)) (hr : rule.2 s = out)
    (ho : ∀ t, out ≠ .ok (false, t)) : env.advance s = out :=
  tryRules_eq hh (Subset.refl _) hf hs hr ho

/-! ## Between lines -/

theorem advance_eos (hh : env.hooks = []) (hi : env.interpolated = false) (hr : s.rest = []) :
    env.advance s = .ok (true,
      { (s.indents.foldl (fun s _ => s.push .outdent) s).push .eos with ended := true }) := by
  have hf : env.rules.filter (·.1.fits s.rest) = [(.eos, env.eos)] := by
    rw [hr]
    rfl
  refine advance_eq hh [] _ hf (by simp) ?_ (by simp)
  simp [eos, hr, hi]

theorem fitting_break (hr : s.rest = '\n' :: cs) :
    env.rules.filter (·.1.fits s.rest) = [(.blank, blank), (.indent, env.indent)] := by
  rw [hr]
  rfl

theorem advance_blank (hh : env.hooks = []) {gap : List Char}
    (hg : gap.all isGap) (hr : s.rest = '\n' :: (gap ++ '\n' :: cs)) :
    env.advance s = .ok (true, { s.advanceLine 1 with rest := '\n' :: cs }) := by
  have hd : (gap ++ '\n' :: cs).dropWhile isGap = '\n' :: cs := by
    rw [dropWhile_append_of_pos (all_eq_true.mp hg)]
    rfl
  refine advance_eq hh [] _ (fitting_break hr) (by simp) ?_ (by simp)
  simp [blank, hr, hd]

theorem advance_indent (hh : env.hooks = []) (hr : s.rest = '\n' :: cs)
    (hl : ∀ rest, cs.dropWhile isGap ≠ '\n' :: rest) (h : env.indent s = out)
    (ho : ∀ t, out ≠ .ok (false, t)) : env.advance s = out := by
  have hb : s.blank = .ok (false, s) := by
    simp only [blank, hr]
  exact advance_eq hh [_] _ (fitting_break hr) (by simpa using hb) h ho

/-! ## Parts of a line -/

theorem afterWord?_eq_none_of_mark {c : Char}
    (hw : word.toList.head?.any (fun c => !isPlainWord c) = true)
    (hc : isPlainWord c) : afterWord? word (c :: cs) = none := by
  rw [afterWord?_eq_none]
  intro hp
  cases hl : word.toList with
  | nil => simp [hl] at hw
  | cons d ds =>
    rw [hl] at hw hp
    obtain ⟨rfl, -⟩ := cons_prefix_cons.mp hp
    simp [hc] at hw

theorem advance_idName (hh : env.hooks = []) (hr : s.rest = '#' :: cs) (hn : name? cs = some name) :
    env.advance s = .ok (true, ((s.push (.id (String.ofList name))).consume
      (name.length + 1)).advanceColumn (name.length + 1)) := by
  have hf : env.rules.filter (·.1.fits s.rest) =
      [(.interpolation, env.interpolation), (.id, env.idName)] := by
    rw [hr]
    rfl
  have hi : env.interpolation s = .ok (false, s) := by
    unfold interpolation
    split
    · rename_i hb
      obtain rfl := (cons.inj (hr.symm.trans hb)).2
      simp [name?, isNamePart, isPlainWord] at hn
    · rfl
  refine advance_eq hh [_] _ hf (by simpa using hi) ?_ (by simp)
  simp [idName, hr, hn]

theorem advance_className (hh : env.hooks = []) (hr : s.rest = '.' :: cs)
    (hn : className? cs = some name) :
    env.advance s = .ok (true, ((s.push (.class (String.ofList name))).consume
      (name.length + 1)).advanceColumn (name.length + 1)) := by
  have hf : env.rules.filter (·.1.fits s.rest) =
      [(.dot, env.dot), (.className, env.className)] := by
    rw [hr]
    rfl
  have hd : env.dot s = .ok (false, s) := by
    have hen : s.takeToLineEnd ".".toList = none := by
      simp [takeToLineEnd, hr, endOfLine?_of_className? hn]
    have hl : loneWord "." .dot s = (false, s) := by
      unfold loneWord
      rw [hen]
      split <;> rfl
    unfold dot
    rw [hl]
  refine advance_eq hh [_] _ hf (by simpa using hd) ?_ (by simp)
  simp [className, hr, hn]

theorem nextMarker_eq (interpolating : Bool) (h : ∀ c ∈ text, c ≠ '#' ∧ c ≠ '!' ∧ c ≠ '\\') :
    nextMarker interpolating false text = (text, none) := by
  induction text with
  | nil => rfl
  | cons c cs ih =>
    obtain ⟨⟨hh, hb, hs⟩, hc⟩ := forall_mem_cons.mp h
    have hm : markerAt interpolating false (c :: cs) = none := by
      unfold markerAt
      split <;> simp_all
    unfold nextMarker
    rw [hm, ih hc]

theorem advance_text (hh : env.hooks = []) (hi : env.interpolated = false)
    (hr : s.rest = ' ' :: cs) (hl : line cs = text) (ht : text ≠ [])
    (hm : ∀ c ∈ text, c ≠ '#' ∧ c ≠ '!' ∧ c ≠ '\\') :
    env.advance s = .ok (true,
      ((s.consume (1 + text.length)).advanceColumn 1).pushText .plain text) := by
  have hf : env.rules.filter (·.1.fits s.rest) = [(.text, env.text)] := by
    rw [hr]
    rfl
  have ha (t : Lexer) : env.addText .plain text t = .ok (t.pushText .plain text) := by
    unfold addText addTextSteps
    rw [hi, nextMarker_eq _ hm]
    simp [pushSomeText, ht]
  refine advance_eq hh [] _ hf (by simp) ?_ (by simp)
  simp only [Setting.text, hr, textLine?, hl, List.isEmpty_iff, ht, if_false, ha]
  rfl

end Setting
end PugTemplate
