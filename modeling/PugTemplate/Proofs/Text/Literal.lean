import PugTemplate.Script.Escape
import PugTemplate.Script.Lexical
/-!
# String literals read back

A text that is written as a string literal of a script is read back as that text. Every character is
written in one of three forms, as itself, as a backslash with one more character, or as four
hexadecimal digits after `\u`; what the two readers of literals do with a form is said once for each
of them, and everything about whole literals follows by induction over the text.
-/

namespace PugTemplate

open List
namespace Text
namespace Quoted

open Script (decode readString unescape isEscape isHexDigit charOf?)

/-! ## Hexadecimal digits -/

theorem hexValue?_hexDigit : ∀ d < 16, hexValue? (hexDigit d) = some d := by decide

variable {c : Char} {d : Nat} {cs : List Char}

theorem isHexDigit_of_hexValue? (h : hexValue? c = some d) : isHexDigit c := by
  unfold hexValue? at h
  unfold isHexDigit
  split at h
  · simp [*]
  · split at h
    · simp_all
    · split at h
      · simp_all
      · exact absurd h (by simp)

theorem ne_of_isHexDigit (h : isHexDigit c) :
    c ≠ '"' ∧ c ≠ '\\' ∧ c ≠ '\n' ∧ c ≠ '\r' ∧ c ≠ '{' := by
  refine ⟨?_, ?_, ?_, ?_, ?_⟩ <;> rintro rfl <;> exact absurd h (by decide)

theorem charOf?_toNat (c : Char) : charOf? c.toNat = some c := by
  unfold charOf?
  rw [if_pos (show c.toNat.isValidChar from c.valid), Char.ofNat_toNat]

/-! ## The three forms of a character -/

/-- The characters that stand after a backslash, with what they mean there. -/
def shortEscapes : List (Char × Char) :=
  [('"', '"'), ('\\', '\\'), ('n', '\n'), ('r', '\r'), ('t', '\t'), ('b', '\x08'), ('f', '\x0c')]

/-- The ways to write a character inside of a string literal. -/
inductive Written (c : Char) : List Char → Prop where
  | itself (hquote : c ≠ '"') (hback : c ≠ '\\') (hfeed : c ≠ '\n') (hreturn : c ≠ '\r') :
      Written c [c]
  | short {e : Char} (h : (e, c) ∈ shortEscapes) : Written c ['\\', e]
  | digits {a b d e : Char} {p q r s : Nat} (ha : hexValue? a = some p) (hb : hexValue? b = some q)
      (hd : hexValue? d = some r) (he : hexValue? e = some s)
      (hc : 256 * (16 * p + q) + (16 * r + s) = c.toNat) : Written c ['\\', 'u', a, b, d, e]

theorem Written.test {d : Char} {ds : List Char} (how : Written d cs)
    (ho : c ≠ d → Written c ds) : Written c (if c == d then cs else ds) := by
  split
  case isTrue h => rw [eq_of_beq h]; exact how
  case isFalse h => exact ho fun heq => h (by simp [heq])

/-- A character of a data file's string is written in one of the three forms. -/
theorem written_plainEscape (c : Char) : Written c (plainEscape c) := by
  -- a short form for each of seven characters in turn: what the first four tests rule out is what
  -- a character needs to stand for itself
  refine .test (.short (by decide)) fun hq => .test (.short (by decide)) fun hb =>
    .test (.short (by decide)) fun hf => .test (.short (by decide)) fun hr =>
    .test (.short (by decide)) fun _ => .test (.short (by decide)) fun _ =>
    .test (.short (by decide)) fun _ => ?_
  split
  case isTrue h =>
    have hh : c.toNat / 16 % 16 < 16 := Nat.mod_lt _ (by decide)
    have hl : c.toNat % 16 < 16 := Nat.mod_lt _ (by decide)
    refine .digits rfl rfl (hexValue?_hexDigit _ hh) (hexValue?_hexDigit _ hl) ?_
    omega
  case isFalse => exact .itself hq hb hf hr

/-- **A character of a script's string is written in one of the three forms.** -/
theorem written_scriptEscape (c : Char) : Written c (scriptEscape c) := by
  -- brackets and slashes could end the script, and the last two are line ends in a script
  refine .test (.digits rfl rfl rfl rfl rfl) fun _ =>
    .test (.digits rfl rfl rfl rfl rfl) fun _ =>
    .test (.digits rfl rfl rfl rfl rfl) fun _ => ?_
  split
  case isTrue h =>
    exact .digits rfl rfl rfl rfl (eq_of_beq h).symm
  split
  case isTrue h =>
    exact .digits rfl rfl rfl rfl (eq_of_beq h).symm
  exact written_plainEscape c

/-! ## The readers on one character -/

/-- Decoding a written character gives the character, and goes on behind it. -/
theorem decode_written (h : Written c cs) (rest : List Char) :
    decode .text (cs ++ rest) = (decode .text rest).map (c :: ·) := by
  cases h with
  | itself hq hba hf hr =>
    show decode .text (c :: rest) = _
    rw [decode]
    all_goals simp_all
  | short hm =>
    simp only [shortEscapes, mem_cons, Prod.mk.injEq, not_mem_nil, or_false] at hm
    rcases hm with ⟨rfl, rfl⟩ | ⟨rfl, rfl⟩ | ⟨rfl, rfl⟩ | ⟨rfl, rfl⟩ | ⟨rfl, rfl⟩ | ⟨rfl, rfl⟩ |
      ⟨rfl, rfl⟩ <;> simp [decode]
  | digits ha hb hd he hc =>
    have hbr := (ne_of_isHexDigit (isHexDigit_of_hexValue? ha)).2.2.2.2
    simp only [cons_append, nil_append]
    rw [decode]
    · simp [ha, hb, hd, he, hc, charOf?_toNat]
    · simpa using hbr

theorem readString_ordinary (hq : c ≠ '"') (hb : c ≠ '\\') (hf : c ≠ '\n')
    (hr : c ≠ '\r') (rest : List Char) :
    readString '"' (c :: rest) = (readString '"' rest).map fun p => (c :: p.1, p.2) := by
  rw [readString]
  all_goals simp_all

theorem readString_hexDigit (h : hexValue? c = some d) (rest : List Char) :
    readString '"' (c :: rest) = (readString '"' rest).map fun p => (c :: p.1, p.2) := by
  obtain ⟨hq, hb, hf, hr, -⟩ := ne_of_isHexDigit (isHexDigit_of_hexValue? h)
  exact readString_ordinary hq hb hf hr rest

/-- Four digits after `u` are an escape. -/
theorem isEscape_digits {a b d e : Char} (ha : isHexDigit a) (hb : isHexDigit b)
    (hd : isHexDigit d) (he : isHexDigit e) (rest : List Char) :
    isEscape ('u' :: a :: b :: d :: e :: rest) := by
  rw [isEscape]
  · simp [ha, hb, hd, he]
  · simpa using (ne_of_isHexDigit ha).2.2.2.2

/-- Reading a string literal takes a written character as it stands, and goes on behind it. -/
theorem readString_written (h : Written c cs) (rest : List Char) :
    readString '"' (cs ++ rest) = (readString '"' rest).map fun p => (cs ++ p.1, p.2) := by
  cases h with
  | itself hq hba hf hr => exact readString_ordinary hq hba hf hr rest
  | short hm =>
    simp only [shortEscapes, mem_cons, Prod.mk.injEq, not_mem_nil, or_false] at hm
    rcases hm with ⟨rfl, -⟩ | ⟨rfl, -⟩ | ⟨rfl, -⟩ | ⟨rfl, -⟩ | ⟨rfl, -⟩ | ⟨rfl, -⟩ | ⟨rfl, -⟩ <;>
      simp [readString, isEscape]
  | digits ha hb hd he hc =>
    simp only [cons_append, nil_append]
    rw [readString]
    -- the reader looks at the digits twice: as an escape after the backslash, and each by itself
    · rw [if_pos (isEscape_digits (isHexDigit_of_hexValue? ha) (isHexDigit_of_hexValue? hb)
          (isHexDigit_of_hexValue? hd) (isHexDigit_of_hexValue? he) rest),
        readString_hexDigit ha, readString_hexDigit hb, readString_hexDigit hd,
        readString_hexDigit he]
      simp [Function.comp_def]
    · simp

/-! ## Whole literals -/

def body (s : String) : String := String.ofList (s.toList.flatMap scriptEscape)

theorem script_eq_body (s : String) : script s = "\"" ++ body s ++ "\"" := by
  apply String.toList_inj.mp
  simp [script, quote, body]

/-- Decoding the inside of a literal gives its text, and goes on behind it. -/
theorem decode_flatMap_scriptEscape (cs rest : List Char) :
    decode .text (cs.flatMap scriptEscape ++ rest) = (decode .text rest).map (cs ++ ·) := by
  induction cs with
  | nil => simp
  | cons c cs ih =>
    rw [flatMap_cons, append_assoc, decode_written (written_scriptEscape c), ih]
    simp [Function.comp_def]

theorem readString_flatMap_scriptEscape (cs rest : List Char) :
    readString '"' (cs.flatMap scriptEscape ++ '"' :: rest) =
      some (cs.flatMap scriptEscape, rest) := by
  induction cs with
  | nil => simp [readString]
  | cons c cs ih =>
    rw [flatMap_cons, append_assoc, readString_written (written_scriptEscape c), ih]
    simp

/-- The inside of a string literal stands for a text: read after an opening quote, the literal ends
at the quote behind it and nowhere before, and it decodes to the text. -/
def Denotes (inside text : String) : Prop :=
  (∀ rest, readString '"' (inside.toList ++ '"' :: rest) = some (inside.toList, rest)) ∧
    unescape inside = some text

theorem denotes_body (s : String) : Denotes (body s) s := by
  refine ⟨fun rest => ?_, ?_⟩
  · simpa [body] using readString_flatMap_scriptEscape s.toList rest
  · have hd := decode_flatMap_scriptEscape s.toList []
    simp only [append_nil] at hd
    simp [unescape, body, hd, decode]

/-! ## Literals inside of a page -/

/-- Every quote has a backslash before it, and every backslash has a character behind it to which it
belongs. -/
def QuotesEscaped : List Char → Prop
  | [] => True
  | ['\\'] => False
  | '\\' :: _ :: cs => QuotesEscaped cs
  | c :: cs => c ≠ '"' ∧ QuotesEscaped cs

theorem quotesEscaped_cons (hq : c ≠ '"') (hb : c ≠ '\\') (h : QuotesEscaped cs) :
    QuotesEscaped (c :: cs) := by
  rw [QuotesEscaped]
  · exact ⟨hq, h⟩
  all_goals simp_all

theorem Written.quotesEscaped (h : Written c cs) {rest : List Char} (hr : QuotesEscaped rest) :
    QuotesEscaped (cs ++ rest) := by
  cases h with
  | itself hq hba _ _ => exact quotesEscaped_cons hq hba hr
  | short _ => exact hr
  | digits ha hb hd he _ =>
    have hdi {a : Char} {p : Nat} (ha : hexValue? a = some p) {cs : List Char}
        (h : QuotesEscaped cs) : QuotesEscaped (a :: cs) :=
      have hn := ne_of_isHexDigit (isHexDigit_of_hexValue? ha)
      quotesEscaped_cons hn.1 hn.2.1 h
    exact hdi ha (hdi hb (hdi hd (hdi he hr)))

/-- A character that neither ends a script element nor a line, and is no control character. -/
def isScriptSafe (c : Char) : Bool :=
  c != '<' && c != '>' && c != '/' && 0x20 ≤ c.toNat && c.toNat != 0x2028 && c.toNat != 0x2029

theorem isScriptSafe_hexDigit : ∀ d < 16, isScriptSafe (hexDigit d) := by decide

theorem isScriptSafe_scriptEscape (c : Char) : ∀ d ∈ scriptEscape c, isScriptSafe d := by
  have hh := isScriptSafe_hexDigit (c.toNat / 16 % 16) (Nat.mod_lt _ (by decide))
  have hl := isScriptSafe_hexDigit (c.toNat % 16) (Nat.mod_lt _ (by decide))
  rw [← all_eq_true]
  fun_cases scriptEscape c <;> try decide
  fun_cases plainEscape c <;> try decide
  · simp only [unicodeEscape, all_cons, hh, hl]
    decide
  · simp_all [isScriptSafe]

/-- **String literals read back, and are safe inside of a page.** A literal is its inside between
quotes. No quote and no line end in there ends the literal, nothing in there ends a script element, it
decodes to the text, and the inside of two texts in a row is that of the first and that of the second.
-/
theorem script_roundTrip (s t : String) :
    script s = "\"" ++ body s ++ "\"" ∧ QuotesEscaped (body s).toList ∧
      (∀ c ∈ (body s).toList, isScriptSafe c = true) ∧ unescape (body s) = some s ∧
      body (s ++ t) = body s ++ body t := by
  refine ⟨script_eq_body s, ?_, ?_, (denotes_body s).2, ?_⟩
  · rw [body, String.toList_ofList]
    induction s.toList with
    | nil => trivial
    | cons c cs ih => exact (written_scriptEscape c).quotesEscaped ih
  · intro d hd
    rw [body, String.toList_ofList] at hd
    obtain ⟨c, -, hd⟩ := mem_flatMap.mp hd
    exact isScriptSafe_scriptEscape c d hd
  · rw [body, String.toList_append, flatMap_append, String.ofList_append]
    rfl

end Quoted
end Text
end PugTemplate
