import PugTemplate.Proofs.Markup.ClassNames
/-!
# Attributes between quotes

Whatever a constant is, its attribute is one attribute: the quote around its text does not occur in
the text. An escaped text is one that can be read back, since every special character has become an
entity and there are no others.
-/

namespace PugTemplate

open List
namespace Markup

/-! ## Entities -/

/-- The names of entities behind `&`. -/
def entityNames : List (List Char) := ["quot;".toList, "amp;".toList, "lt;".toList, "gt;".toList]

theorem plain_of_mem_entityNames {name : List Char} (h : name ∈ entityNames) :
    '&' ∉ name ∧ ∀ d ∈ name, d ≠ '<' ∧ d ≠ '>' ∧ d ≠ '"' := by
  simp only [entityNames, mem_cons, not_mem_nil, or_false] at h
  rcases h with rfl | rfl | rfl | rfl <;> simp

/-- **An escaped text**: the only special characters are those that start an entity, and with
characters in the places of these it is the source again. -/
structure IsEscaped (text source : List Char) : Prop where
  plain : ∀ c ∈ text, c ≠ '<' ∧ c ≠ '>' ∧ c ≠ '"'
  entity : ∀ after, '&' :: after <:+ text → ∃ name ∈ entityNames, name <+: after
  decoded : decodeEntities text = source

/-- A text without `&` in front of another one has none of its entities. -/
theorem suffix_of_suffix_append {front text after : List Char} (hf : '&' ∉ front)
    (h : '&' :: after <:+ front ++ text) : '&' :: after <:+ text := by
  induction front with
  | nil => exact h
  | cons c front ih =>
    rw [mem_cons, not_or] at hf
    rcases suffix_cons_iff.mp h with h | h
    · exact absurd (cons.inj h).1 hf.1
    · exact ih hf.2 h

theorem isEscaped_escapeChars (cs : List Char) : IsEscaped (escapeChars cs) cs := by
  induction cs with
  | nil => exact ⟨nofun, by simp, rfl⟩
  | cons c cs ih =>
    have hd := decodeEntities_escapeChars (c :: cs)
    rw [escapeChars_cons] at hd ⊢
    cases hs : isSpecial c with
    | false =>
      rw [escapeChar_of_ordinary hs] at hd ⊢
      simp only [isSpecial, Bool.or_eq_false_iff, beq_eq_false_iff_ne] at hs
      obtain ⟨⟨⟨hq, ha⟩, hl⟩, hg⟩ := hs
      refine ⟨forall_mem_cons.mpr ⟨⟨hl, hg, hq⟩, ih.plain⟩, fun after h => ?_, hd⟩
      exact ih.entity after (suffix_of_suffix_append (by simpa using Ne.symm ha) h)
    | true =>
      simp only [isSpecial, Bool.or_eq_true, beq_iff_eq] at hs
      obtain ⟨name, hm, hn⟩ : ∃ name ∈ entityNames, escapeChar c = '&' :: name := by
        rcases hs with ((rfl | rfl) | rfl) | rfl <;> exact ⟨_, by decide, rfl⟩
      obtain ⟨ha, hp⟩ := plain_of_mem_entityNames hm
      refine ⟨?_, fun after h => ?_, hd⟩
      · rw [hn, cons_append, forall_mem_cons, forall_mem_append]
        exact ⟨by decide, hp, ih.plain⟩
      · rw [hn, cons_append] at h
        rcases suffix_cons_iff.mp h with h | h
        · exact ⟨name, hm, (cons.inj h).2 ▸ prefix_append _ _⟩
        · exact ih.entity after (suffix_of_suffix_append ha h)

/-! ## Quotes -/

theorem quote_not_mem_toString (n : Int) : '"' ∉ (toString n).toList :=
  fun h => countP_eq_zero.mp (Value.countP_toString n) '"' h rfl

theorem quote_not_mem_layoutPlain (d : Decimal) : '"' ∉ d.layoutPlain.toList := by
  have hs : '"' ∉ d.sign.toList := by
    unfold Decimal.sign
    split <;> decide
  have hd : '"' ∉ Nat.toDigits 10 d.digits := fun h =>
    absurd (Nat.isDigit_of_mem_toDigits (by decide) (by decide) h) (by decide)
  unfold Decimal.layoutPlain Decimal.placePoint
  split
  · simp [hs]
  · have ht (n : Nat) := mt (mem_of_mem_take (i := n)) hd
    have hdr (n : Nat) := mt (mem_of_mem_drop (i := n)) hd
    split
    · simp [hs, hd]
    · split
      · simp [hs, hd]
      · simp [hs, ht, hdr]

theorem quote_not_mem_doubleText (x : Double) : '"' ∉ (Value.doubleText x).toList := by
  unfold Value.doubleText
  split
  · exact quote_not_mem_toString _
  · exact quote_not_mem_layoutPlain _

theorem quote_not_mem_intText (n : Int) : '"' ∉ (Value.intText n).toList := by
  unfold Value.intText
  split
  · exact quote_not_mem_toString n
  · split
    · exact quote_not_mem_doubleText _
    · exact quote_not_mem_toString n

/-! ## Attributes -/

/-- The text of an attribute before it is escaped. -/
def attributeSource : Value → String
  | .array items => (Value.array items).json
  | .object entries => (Value.object entries).json
  | v => v.toText

/-- **The forms of an attribute**: it is left out, it is just true, or it has a text between quotes
that do not occur in the text. -/
inductive AttributeForm (key : String) (v : Value) (escaped terse : Bool) : String → Prop where
  | absent (h : isAbsent key v = true) : AttributeForm key v escaped terse ""
  | bare (hv : v = .bool true) (hterse : terse = true) :
      AttributeForm key v escaped terse (" " ++ key)
  | named (hv : v = .bool true) (hterse : terse = false) :
      AttributeForm key v escaped terse (" " ++ key ++ "=\"" ++ key ++ "\"")
  | doubleQuoted {text : String} (hquote : '"' ∉ text.toList)
      (hescaped : escaped = true → IsEscaped text.toList (attributeSource v).toList) :
      AttributeForm key v escaped terse (" " ++ key ++ "=\"" ++ text ++ "\"")
  | singleQuoted {text : String} (hquote : '\'' ∉ text.toList) (hescaped : escaped = false) :
      AttributeForm key v escaped terse (" " ++ key ++ "='" ++ text ++ "'")

variable {key : String} {v : Value} {escaped terse : Bool}

theorem AttributeForm.escape (v : Value) :
    AttributeForm key v true terse (keyed key (escape (attributeSource v))) := by
  have hes := isEscaped_escapeChars (attributeSource v).toList
  rw [← toList_escape] at hes
  exact .doubleQuoted (fun h => (hes.plain _ h).2.2 rfl) fun _ => hes

theorem form_dataAttribute (hv : attributeSource v = v.json) :
    AttributeForm key v escaped terse (dataAttribute key v escaped) := by
  unfold dataAttribute
  cases escaped with
  | true => exact hv ▸ .escape v
  | false =>
    rw [if_neg Bool.false_ne_true]
    split
    · refine .singleQuoted ?_ rfl
      rw [escapeSingleQuotes, String.toList_ofList, mem_flatMap]
      rintro ⟨c, -, hc⟩
      split at hc
      · exact absurd hc (by decide)
      · rename_i ho
        obtain rfl := mem_singleton.mp hc
        exact ho rfl
    · rename_i hq
      exact .doubleQuoted (by simpa using hq) nofun

theorem form_textAttribute (hv : attributeSource v = v.toText)
    (h : escaped ∨ '"' ∉ v.toText.toList) :
    AttributeForm key v escaped terse (textAttribute key v.toText escaped) := by
  cases escaped with
  | true => exact hv ▸ .escape v
  | false => exact .doubleQuoted (h.resolve_left Bool.false_ne_true) nofun

/-- **The text of an attribute stays between its quotes**, if it is escaped or no string. -/
theorem attributeText_form (key : String) (v : Value) (escaped terse : Bool)
    (h : escaped = true ∨ ∀ s, v ≠ .string s) :
    AttributeForm key v escaped terse (attributeText key v escaped terse) := by
  unfold attributeText
  split
  · exact .absent ‹_›
  · rename_i hpresent
    cases v with
    | null => exact absurd rfl hpresent
    | bool b =>
      cases b with
      | false => exact absurd rfl hpresent
      | true =>
        cases terse with
        | true => exact .bare rfl rfl
        | false => exact .named rfl rfl
    | int n => exact form_textAttribute rfl (.inr (quote_not_mem_intText n))
    | double x => exact form_textAttribute rfl (.inr (quote_not_mem_doubleText x))
    | string s => exact form_textAttribute rfl (.inl (h.resolve_right fun h => h s rfl))
    | array items => exact form_dataAttribute rfl
    | object entries => exact form_dataAttribute rfl

/-- An array whose text has quotes of both kinds. -/
theorem attributeText_form_mixed :
    let v : Value := .array [.string "it's"]
    (∀ s, v ≠ .string s) ∧ AttributeForm "data-a" v false true " data-a='[\"it&#39;s\"]'" := by
  intro v
  have htext : attributeText "data-a" v false true = " data-a='[\"it&#39;s\"]'" := by decide
  exact ⟨nofun, htext ▸ attributeText_form "data-a" v false true (.inr nofun)⟩

end Markup
end PugTemplate
