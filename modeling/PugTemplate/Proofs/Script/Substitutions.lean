import PugTemplate.Proofs.Script.Levels
/-!
# Substitutions in templates

A brace in a template starts a substitution behind a dollar sign. The sign is remembered until more of
a template is read, and the brace that starts a substitution does not forget it. So the first
character of a template inside of the substitution, and the first one behind it, may be a brace that is
taken for the start of another substitution.
-/

namespace PugTemplate
namespace Nesting
namespace State

/-! ## Characters of templates -/

/-- What a character of a template does: it ends the template, starts a substitution, or changes no
level. -/
inductive Templated (s : State) (c : Char) (next : State) : Prop where
  | leave (hc : c = '\x60') (hstack : next.stack = s.stack.tail) (hdollar : next.dollar = false)
  | enter (hc : c = '{') (hsign : s.dollar = true) (hstack : next.stack = .bracket '}' :: s.stack)
      (hdollar : next.dollar = true)
  | keep (hbrace : ¬(c = '{' ∧ s.dollar = true)) (hstack : next.stack = s.stack)
      (hescaped : next.escaped = (c == '\\' && !s.escaped))
      (hdollar : next.dollar = (c == '$' && !s.escaped))

theorem templated_inTemplate (s : State) (c : Char) : Templated s c (s.inTemplate c) := by
  unfold inTemplate
  split
  · next hen =>
    simp only [Bool.and_eq_true, beq_iff_eq] at hen
    exact .leave hen.1 rfl rfl
  split
  · next hba =>
    simp only [Bool.and_eq_true, beq_iff_eq, Bool.not_eq_true'] at hba
    obtain ⟨rfl, hes⟩ := hba
    exact .keep (by simp) rfl (by rw [hes]; rfl) rfl
  split
  · next hs =>
    simp only [Bool.and_eq_true, beq_iff_eq, Bool.not_eq_true'] at hs
    obtain ⟨rfl, hes⟩ := hs
    exact .keep (by simp) rfl hes (by rw [hes]; rfl)
  split
  · next hb =>
    simp only [Bool.and_eq_true, beq_iff_eq] at hb
    exact .enter hb.1 hb.2 rfl hb.2
  · next hba hs hb =>
    simp only [Bool.not_eq_true] at hba hs
    exact .keep (by simpa using hb) rfl hba.symm hs.symm

variable {s : State} {c : Char} {level : Context} {next : State} {cs : List Char}

theorem Ordered.feed_template (h : s.Ordered) (hcu : s.current = some .templateQuote) (c : Char) :
    Templated s c (s.feed c).2 := by
  have hst : s.regexStart = false := by
    by_contra hr
    have hl := (h.regexStart (by simpa using hr)).1
    rw [hcu] at hl
    cases hl
  have hse : s.settled c = { s with taken := c :: s.taken } := by
    rw [State.settled, settleRegex_of_false hst]
  have hn : (s.settled c).inContext c = some ((s.settled c).inTemplate c) := by
    unfold State.inContext
    rw [show (s.settled c).current = some .templateQuote by rw [hse]; exact hcu]
  have ht := templated_inTemplate (s.settled c) c
  rw [feed_of_some hn]
  rw [hse] at ht ⊢
  cases ht with
  | leave hc hs hd => exact .leave hc hs hd
  | enter hc hsi hs hd => exact .enter hc hsi hs hd
  | keep hb hs hes hd => exact .keep hb hs hes hd

/-! ## Other characters -/

theorem InCode.ne_template (h : s.InCode) : s.current ≠ some .templateQuote := by
  rcases h with hn | ⟨closer, hb⟩
  · rw [hn]
    rintro ⟨⟩
  · rw [hb]
    rintro ⟨⟩

/-- A character that does not belong to a template leaves the sign alone. If there is a template
behind it, it is a backtick or the brace that ends a substitution, and nothing is escaped. -/
def Untemplated (s : State) (c : Char) (next : State) : Prop :=
  next.dollar = s.dollar ∧
    (next.current = some .templateQuote → (c = '\x60' ∨ c = '}') ∧ next.escaped = false)

theorem Ordered.untemplated_leave (h : s.Ordered) (hc : s.current = some level)
    (hl : level ≠ .bracket '}') : Untemplated s c s.leave :=
  ⟨rfl, fun ht => absurd ht (h.inCode_leave hc hl).ne_template⟩

theorem untemplated_of_stack (hs : next.stack = s.stack) (hd : next.dollar = s.dollar)
    (ho : s.current ≠ some .templateQuote) : Untemplated s c next := by
  refine ⟨hd, fun ht => absurd ?_ ho⟩
  rwa [current, hs] at ht

theorem Ordered.untemplated_inQuotes (h : s.Ordered) (hc : s.current = some level)
    (hq : level.hasEscapes) (ht : level ≠ .templateQuote) (terminator c : Char) :
    Untemplated s c (s.inQuotes terminator c) := by
  unfold State.inQuotes
  split
  · refine h.untemplated_leave hc ?_
    rintro rfl
    cases hq
  · refine untemplated_of_stack rfl rfl ?_
    rw [hc]
    simpa using ht

theorem dollar_inCode (h : s.inCode c = some next) : next.dollar = s.dollar := by
  unfold inCode at h
  dsimp only at h
  repeat' split at h
  all_goals cases h
  all_goals rfl

theorem eq_backtick_of_inCode (h : s.inCode c = some next)
    (hc : next.current = some .templateQuote) (hd : next.depth = s.depth + 1) :
    c = '\x60' := by
  unfold inCode at h
  dsimp only at h
  repeat' split at h
  all_goals cases h
  all_goals simp_all [enter, leave, current, depth]

theorem Ordered.untemplated_inCode (h : s.Ordered) (hc : s.InCode)
    (hn : s.inCode c = some next) : Untemplated s c next := by
  obtain ⟨hco, hes⟩ := coded_inCode hn
  refine ⟨dollar_inCode hn, fun ht => ⟨?_, hes.trans (h.escaped_of_inCode hc)⟩⟩
  cases hco with
  | keep hs _ =>
    rw [current, hs] at ht
    exact absurd ht hc.ne_template
  | enter level hs _ =>
    exact .inl (eq_backtick_of_inCode hn ht (by rw [depth, hs]; rfl))
  | leave _ hf hs _ =>
    -- below any other bracket there is code
    by_contra ho
    rw [not_or] at ho
    have hb := h.inCode_leave hf (by simpa using ho.2)
    rw [current, hs] at ht
    exact hb.ne_template ht

theorem Ordered.untemplated_inContext (h : s.Ordered) (ho : s.current ≠ some .templateQuote)
    (hn : s.inContext c = some next) : Untemplated s c next := by
  unfold State.inContext at hn
  cases hc : s.current with
  | none =>
    rw [hc] at hn
    exact h.untemplated_inCode (Or.inl hc) hn
  | some level =>
    rw [hc] at hn
    cases level with
    | lineComment | blockComment =>
      cases hn
      split
      · exact h.untemplated_leave hc (by rintro ⟨⟩)
      · exact untemplated_of_stack rfl rfl ho
    | singleQuote | doubleQuote | regex =>
      cases hn
      exact h.untemplated_inQuotes hc rfl (by rintro ⟨⟩) _ c
    | templateQuote => exact absurd hc ho
    | bracket closer => exact h.untemplated_inCode (Or.inr ⟨closer, hc⟩) hn

theorem Ordered.settled_ne_template (h : s.Ordered) (ho : s.current ≠ some .templateQuote) (c : Char) :
    (s.settled c).current ≠ some .templateQuote := by
  cases hs : s.regexStart with
  | false =>
    rw [State.settled, settleRegex_of_false hs]
    exact ho
  | true =>
    have hl := (h.inCode_leave (h.regexStart hs).1 (by rintro ⟨⟩)).ne_template
    simp only [State.settled, State.settleRegex, hs, if_true]
    split
    · exact hl
    · exact ho

theorem dollar_settled (s : State) (c : Char) : (s.settled c).dollar = s.dollar := by
  unfold settled settleRegex
  repeat' split
  all_goals rfl

theorem Ordered.feed_outside (h : s.Ordered) (ho : s.current ≠ some .templateQuote) (c : Char) :
    Untemplated s c (s.feed c).2 := by
  have hs := h.settled_ne_template ho c
  cases hn : (s.settled c).inContext c with
  | none =>
    rw [feed_of_none hn]
    exact ⟨dollar_settled s c, fun ht => absurd ht hs⟩
  | some next =>
    rw [feed_of_some hn]
    obtain ⟨hd, hen⟩ := (h.settled c).untemplated_inContext hs hn
    exact ⟨hd.trans (dollar_settled s c), hen⟩

/-! ## Escapes -/

def trailingBackslashes (cs : List Char) : Nat := (cs.reverse.takeWhile (· == '\\')).length

theorem trailingBackslashes_concat (cs : List Char) (c : Char) :
    trailingBackslashes (cs ++ [c]) = if c = '\\' then trailingBackslashes cs + 1 else 0 := by
  unfold trailingBackslashes
  by_cases hc : c = '\\' <;> simp [hc]

/-- **In a template every second backslash escapes.** -/
theorem escaped_after (h : (after cs).current = some .templateQuote) :
    (after cs).escaped = (trailingBackslashes cs % 2 == 1) := by
  induction cs using List.reverseRecOn with
  | nil => cases h
  | append_singleton cs c ih =>
    rw [after_concat] at h ⊢
    rw [trailingBackslashes_concat]
    by_cases ht : (after cs).current = some .templateQuote
    · cases (ordered_after cs).feed_template ht c with
      | leave _ hs _ =>
        have hco := (ordered_after cs).inCode_leave ht (by rintro ⟨⟩)
        rw [current, hs] at h
        exact absurd h hco.ne_template
      | enter _ _ hs _ =>
        rw [current, hs] at h
        cases h
      | keep _ _ hes _ =>
        rw [hes, ih ht]
        split
        · next hc =>
          subst hc
          rcases Nat.mod_two_eq_zero_or_one (trailingBackslashes cs) with hm | hm <;>
            simp [Nat.add_mod, hm]
        · next hc => simp [hc]
    · obtain ⟨hc, hes⟩ := ((ordered_after cs).feed_outside ht c).2 h
      rw [hes]
      rcases hc with rfl | rfl <;> rfl

/-! ## Signs -/

/-- The text ends with a dollar sign of a template, which is not escaped. -/
def EndsWithSign (cs : List Char) : Prop :=
  ∃ front, cs = front ++ ['$'] ∧ (after front).current = some .templateQuote ∧
    (after cs).stack = (after front).stack ∧ trailingBackslashes front % 2 = 0

/-- The text has the start of a substitution in it, and after that no more of a template. -/
inductive SignStays : List Char → Prop where
  | opened {cs : List Char} (htemplate : (after cs).current = some .templateQuote)
      (hopens : (after (cs ++ ['{'])).stack = .bracket '}' :: (after cs).stack) :
      SignStays (cs ++ ['{'])
  | read {cs : List Char} (c : Char) (hstays : SignStays cs)
      (hout : (after cs).current ≠ some .templateQuote) : SignStays (cs ++ [c])

theorem endsWithSign_concat : EndsWithSign (cs ++ [c]) ↔
    c = '$' ∧ (after cs).current = some .templateQuote ∧
      (after (cs ++ [c])).stack = (after cs).stack ∧ trailingBackslashes cs % 2 = 0 := by
  constructor
  · rintro ⟨front, heq, hf⟩
    obtain ⟨rfl, hc⟩ := List.append_inj' heq rfl
    cases hc
    exact ⟨rfl, hf⟩
  · rintro ⟨rfl, hcs⟩
    exact ⟨cs, rfl, hcs⟩

theorem signStays_concat : SignStays (cs ++ [c]) ↔
    (c = '{' ∧ (after cs).current = some .templateQuote ∧
      (after (cs ++ [c])).stack = .bracket '}' :: (after cs).stack) ∨
    (SignStays cs ∧ (after cs).current ≠ some .templateQuote) := by
  constructor
  · intro h
    generalize heq : cs ++ [c] = text at h
    cases h with
    | opened ht ho =>
      obtain ⟨rfl, hc⟩ := List.append_inj' heq rfl
      cases hc
      exact .inl ⟨rfl, ht, ho⟩
    | read d hs hou =>
      obtain ⟨rfl, -⟩ := List.append_inj' heq rfl
      exact .inr ⟨hs, hou⟩
  · rintro (⟨rfl, ht, ho⟩ | ⟨hs, hou⟩)
    · exact .opened ht ho
    · exact .read c hs hou

/-- **When a sign is remembered.** -/
theorem dollar_after (cs : List Char) : (after cs).dollar ↔ EndsWithSign cs ∨ SignStays cs := by
  induction cs using List.reverseRecOn with
  | nil =>
    constructor
    · intro h
      cases h
    · rintro (⟨front, heq, -⟩ | h)
      · simp at heq
      · generalize heq : ([] : List Char) = text at h
        cases h <;> simp at heq
  | append_singleton cs c ih =>
    rw [endsWithSign_concat, signStays_concat, after_concat]
    by_cases ht : (after cs).current = some .templateQuote
    · cases (ordered_after cs).feed_template ht c with
      | leave hc _ hd =>
        subst hc
        simp [hd, ht]
      | enter hc _ hs hd => exact ⟨fun _ => .inr (.inl ⟨hc, ht, hs⟩), fun _ => hd⟩
      | keep _ hs _ hd =>
        rw [hd, escaped_after ht, hs]
        simp [ht]
    · rw [((ordered_after cs).feed_outside ht c).1, ih]
      constructor
      · rintro (⟨front, rfl, hf, hs, -⟩ | hst)
        · rw [current, hs] at ht
          exact absurd hf ht
        · exact .inr (.inr ⟨hst, ht⟩)
      · rintro (⟨-, hcu, -⟩ | ⟨-, hcu, -⟩ | ⟨hst, -⟩)
        · exact absurd hcu ht
        · exact absurd hcu ht
        · exact .inr hst

/-- **The braces of a template that start a substitution.** A brace does so behind a dollar sign of the
same template that is not escaped, and behind a sign that stays from the substitution before. In the
second case it is the first character of a template, or the first one behind a substitution. Any other
brace leaves the levels alone. -/
theorem after_brace (cs : List Char) (h : (after cs).current = some .templateQuote) :
    ((after (cs ++ ['{'])).stack = .bracket '}' :: (after cs).stack ↔
      EndsWithSign cs ∨ SignStays cs) ∧
    (¬(EndsWithSign cs ∨ SignStays cs) → (after (cs ++ ['{'])).stack = (after cs).stack) ∧
    (SignStays cs → ∃ front, (cs = front ++ ['\x60'] ∨ cs = front ++ ['}']) ∧
      (after front).current ≠ some .templateQuote) := by
  rw [after_concat, ← dollar_after]
  refine ⟨?_, ?_, ?_⟩
  · cases (ordered_after cs).feed_template h '{' with
    | leave hc _ _ => cases hc
    | enter _ hsign hstack _ => exact ⟨fun _ => hsign, fun _ => hstack⟩
    | keep hbrace hstack _ _ => simpa [hstack] using hbrace
  · intro hsign
    cases (ordered_after cs).feed_template h '{' with
    | leave hc _ _ => cases hc
    | enter _ hdollar _ _ => exact absurd hdollar hsign
    | keep _ hstack _ _ => exact hstack
  · intro hstays
    cases hstays with
    | opened _ hopens =>
      rw [current, hopens] at h
      cases h
    | @read front c _ hout =>
      rw [after_concat] at h
      obtain ⟨hc, -⟩ := ((ordered_after front).feed_outside hout c).2 h
      exact ⟨front, hc.imp (by rintro rfl; rfl) (by rintro rfl; rfl), hout⟩

/-- Behind an escaped backslash, a dollar sign is not escaped. -/
theorem after_brace_backslashes :
    (after "\x60\\\\$".toList).current = some .templateQuote ∧
    (after "\x60\\\\$\x7b".toList).stack = [.bracket '}', .templateQuote] := by
  refine ⟨by decide, (after_brace "\x60\\\\$".toList (by decide)).1.mpr (.inl ?_)⟩
  exact ⟨"\x60\\\\".toList, rfl, by decide, by decide, by decide⟩

/-- A brace right behind a substitution, and one at the start of a template in it, are taken for the
start of a substitution. -/
theorem brace_behind_substitution :
    (after "\x60$\x7ba\x7d".toList).current = some .templateQuote ∧
    (after "\x60$\x7ba\x7d\x7b".toList).stack = [.bracket '}', .templateQuote] ∧
    (after "\x60$\x7b\x60".toList).current = some .templateQuote ∧
    (after "\x60$\x7b\x60\x7b".toList).stack =
      [.bracket '}', .templateQuote, .bracket '}', .templateQuote] := by
  decide

end State
end Nesting
end PugTemplate
