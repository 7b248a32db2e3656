import PugTemplate.Proofs.Script.Splicing
import PugTemplate.Proofs.Token.Results
/-!
# Expressions in tokens

A token that carries an expression has taken it from between brackets, or has had it accepted by the
validator. What stands between brackets leaves nothing open, since the closing bracket has been found
behind it.
-/

namespace PugTemplate

open Text Nesting

/-! ## Expressions of tokens -/

namespace TokenKind

/-- The expression of a token that stands between brackets. -/
def enclosed? : TokenKind → Option String
  | .interpolation source => some source
  | .interpolatedCode source _ _ => some source
  | _ => none

/-- The expression of a token that is written in front of more code, unless it is enclosed. -/
def spliced? : TokenKind → Option String
  | .if test => some test
  | .elseIf test => some test
  | .while test => some test
  | .case subject => some subject
  | .when value => some value
  | .code source _ true => some source
  | .attribute _ (.expression source) _ => some source
  | _ => none

/-- **Where the expression of a token comes from**: nothing is open at its end, or it comes from one
that the validator accepts. -/
structure Vouched (validator : Validator) (kind : TokenKind) : Prop where
  enclosed : ∀ text, kind.enclosed? = some text →
    ∃ s, Nesting.scan text.toList = .ok s ∧ s.stack = []
  spliced : ∀ text, kind.spliced? = some text →
    ∃ e, validator.accepts e = true ∧ Script.Splices e text

variable {validator : Validator} {kind : TokenKind}

theorem Vouched.of_none (h : kind.enclosed? = none ∧ kind.spliced? = none) :
    kind.Vouched validator := by
  constructor
  · intro text ht
    rw [h.1] at ht
    cases ht
  · intro text ht
    rw [h.2] at ht
    cases ht

theorem Vouched.of_enclosed {source : String} {s : Nesting.State}
    (hk : kind.enclosed? = some source ∧ kind.spliced? = none)
    (hsc : scan source.toList = .ok s) (hs : s.stack = []) :
    kind.Vouched validator := by
  constructor
  · intro text ht
    rw [hk.1] at ht
    cases ht
    exact ⟨s, hsc, hs⟩
  · intro text ht
    rw [hk.2] at ht
    cases ht

theorem Vouched.of_spliced {e source : String}
    (hk : kind.enclosed? = none ∧ kind.spliced? = some source)
    (ha : validator.accepts e) (hs : Script.Splices e source) :
    kind.Vouched validator := by
  constructor
  · intro text ht
    rw [hk.1] at ht
    cases ht
  · intro text ht
    rw [hk.2] at ht
    cases ht
    exact ⟨e, ha, hs⟩

theorem Vouched.of_line {value : List Char}
    (hk : kind.enclosed? = none ∧ kind.spliced? = some (String.ofList value))
    (ha : validator.accepts (String.ofList value)) (hl : '\n' ∉ value) :
    kind.Vouched validator :=
  .of_spliced hk ha (.line (by rwa [String.toList_ofList]))

end TokenKind

/-! ## Where expressions are taken from -/

variable {source after cs : List Char}

theorem Nesting.pushAll_of_scanUntilFrom {stop : List Char → Bool} {s : Nesting.State}
    (h : scanUntilFrom stop {} s cs = .ok (source, after)) :
    ∃ front t, source = s.taken.reverse ++ front ∧ s.pushAll front = some t ∧ t.stack = [] := by
  induction cs generalizing s with
  | nil => cases h
  | cons c cs ih =>
    unfold scanUntilFrom at h
    split at h
    · next hst =>
      cases h
      simpa [State.isNesting] using (Bool.and_eq_true_iff.mp hst).1
    · split at h
      · next next hp =>
        obtain ⟨front, t, rfl, ht, hs⟩ := ih h
        refine ⟨c :: front, t, ?_, ?_, hs⟩
        · rw [State.taken_push hp, List.reverse_cons, List.append_assoc]
          rfl
        · rw [State.pushAll_cons, hp]
          exact ht
      · cases h

theorem Nesting.scan_of_scanUntilChar {c : Char} (h : scanUntilChar c cs = .ok (source, after)) :
    ∃ s, scan (String.ofList source).toList = .ok s ∧ s.stack = [] := by
  obtain ⟨front, t, rfl, ht, hs⟩ := pushAll_of_scanUntilFrom h
  rw [String.toList_ofList]
  exact ⟨t, Nesting.State.scanFrom_eq_ok_iff.mpr ht, hs⟩

theorem not_mem_trim (h : '\n' ∉ cs) : '\n' ∉ trim cs :=
  fun hm => h ((trim_isPart cs).subset hm)

theorem trim_of_isBlankText (h : isBlankText cs) : trim cs = [] := by
  unfold trim trimStart
  rw [List.dropWhile_eq_nil_iff.mpr (List.all_eq_true.mp h)]
  rfl

namespace Setting

variable {env : Setting}

theorem scan_bracketed (s : Lexer) (skip : Nat) : Ensures (env.bracketed s skip) fun source =>
    ∃ state, scan (String.ofList source).toList = .ok state ∧ state.stack = [] := by
  unfold bracketed
  split
  · exact .error
  · split
    · next hs => exact .ok (scan_of_scanUntilChar hs)
    · exact .error
    · exact .error

theorem not_mem_line (cs : List Char) : '\n' ∉ Pattern.line cs := by
  intro h
  exact absurd (List.mem_takeWhile_imp h) (by simp [Pattern.isOnLine])

/-- The value of an attribute is trimmed, and is an expression unless it is blank. -/
theorem vouched_token {validator : Validator} {r : AttributeReader}
    (h : isBlankText r.value = false →
      validator.accepts (String.ofList r.value)) : r.token.Vouched validator := by
  unfold AttributeReader.token
  dsimp only
  cases hem : (trim r.value).isEmpty with
  | true => exact .of_none ⟨rfl, rfl⟩
  | false =>
    have hv : isBlankText r.value = false := by
      rw [← Bool.not_eq_true]
      intro hb
      rw [trim_of_isBlankText hb] at hem
      cases hem
    have ht : Script.Splices (String.ofList r.value) (String.ofList (trim r.value)) := by
      have hs := Script.Splices.trimmed (e := String.ofList r.value)
      rwa [trimString, String.toList_ofList] at hs
    exact .of_spliced ⟨rfl, rfl⟩ (h hv) ht

end Setting
end PugTemplate
