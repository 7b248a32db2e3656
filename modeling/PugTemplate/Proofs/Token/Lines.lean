import Mathlib.Algebra.GroupWithZero.Nat
import PugTemplate.Proofs.Token.Progress
/-!
# Lines of the lexer

The line breaks between the plus sign and the name of a mixin that is called are dropped, but not
counted. From there on the line is too small.
-/

namespace PugTemplate

open List

namespace Setting

variable {env : Setting} {depth : Nat} {start s t : Lexer} {passed : List Lexer}

/-! ## Runs -/

/-- One construct, unless nothing more is to be read. -/
def runTurn (env : Setting) (s : Lexer) : Except Diagnostic Lexer ⊕ Lexer :=
  if s.ended then .inl (.ok s)
  else
    match env.call .advance env.advance s with
    | .error d => .inl (.error d)
    | .ok (_, next) => .inr next

/-- **The states of a lexer between its constructs**, up to one of them. The ones before it are
listed, the last one first. -/
inductive Trail (env : Setting) (start : Lexer) : List Lexer → Lexer → Prop
  | start : Trail env start [] start
  | turn {passed : List Lexer} {s t : Lexer} (hpassed : Trail env start passed s)
      (hturn : env.runTurn s = .inr t) : Trail env start (s :: passed) t

theorem Trail.next {rest : List Char} {line : Nat} (h : env.Trail start passed s)
    (htu : (env.runTurn s).getRight?.map (fun t => (t.rest, t.line)) = some (rest, line)) :
    ∃ t, env.Trail start (s :: passed) t ∧ t.rest = rest ∧ t.line = line := by
  obtain ⟨t, ht, hs⟩ := Option.map_eq_some_iff.mp htu
  obtain ⟨hr, hl⟩ := Prod.mk.inj hs
  exact ⟨t, .turn h (Sum.getRight?_eq_some_iff.mp ht), hr, hl⟩

theorem advance_of_runTurn (hh : env.hooks = []) (h : env.runTurn s = .inr t) :
    ∃ b, env.advance s = .ok (b, t) := by
  unfold runTurn at h
  rw [call_eq hh] at h
  split at h
  · cases h
  · split at h
    · cases h
    · rename_i b next ha
      cases h
      exact ⟨b, ha⟩

theorem lastLine_of_trail (hh : env.hooks = []) (hi : env.interpolated = false)
    (hn : env.Delegates depth) (h : env.Trail start passed t) :
    t.rest <:+ start.rest ∧ (t.rest ≠ [] →
      t.lastLine + (passed.map Lexer.callBreaks).sum = start.lastLine) := by
  induction h with
  | start => exact ⟨suffix_refl _, fun _ => rfl⟩
  | @turn passed s t _ htu ih =>
    obtain ⟨b, ha⟩ := advance_of_runTurn hh htu
    have hf : env.Fits s := fun h => absurd (hi.symm.trans h) Bool.false_ne_true
    have hp := ((yields_advance hh hn s hf).of_ok ha).2
    refine ⟨hp.rest.trans ih.1, fun ht => ?_⟩
    have hs : s.rest ≠ [] := fun hni => ht (suffix_nil.mp (hni ▸ hp.rest))
    rw [map_cons, sum_cons, ← Nat.add_assoc, hp.lines ht]
    exact ih.2 hs

end Setting

/-- **Lines are counted, but for calls.** In every state between two constructs, the line is one more
than the line breaks of the text before it, less those between the plus sign of a call and its name.
So it is right exactly if no call before it has any there. -/
theorem line_of_trail (file : Option String) (validator : Validator) (source : String)
    (passed : List Lexer) (s : Lexer)
    (h : (({ file, validator } : Setting).nesting maxInterpolationDepth).Trail
      { rest := normalize source } passed s) (hrest : s.rest ≠ []) :
    ∃ consumed, normalize source = consumed ++ s.rest ∧
      s.line + (passed.map Lexer.callBreaks).sum = 1 + consumed.count '\n' ∧
      (s.line = 1 + consumed.count '\n' ↔ ∀ t ∈ passed, t.callBreaks = 0) := by
  obtain ⟨⟨consumed, hcut⟩, hlines⟩ := Setting.lastLine_of_trail (Setting.hooks_nesting _ _)
    (Setting.interpolated_nesting _ _) (Setting.delegates_nesting rfl _) h
  have hsum : s.line + (passed.map Lexer.callBreaks).sum = 1 + consumed.count '\n' := by
    have hlines : s.line + s.rest.count '\n' + _ = 1 + (normalize source).count '\n' := hlines hrest
    rw [show normalize source = consumed ++ s.rest from hcut.symm, List.count_append] at hlines
    omega
  refine ⟨consumed, hcut.symm, hsum, ?_⟩
  have hzero : (passed.map Lexer.callBreaks).sum = 0 ↔ ∀ t ∈ passed, t.callBreaks = 0 := by
    rw [List.sum_eq_zero_iff_forall_eq_nat]
    exact List.forall_mem_map
  rw [← hzero]
  omega

/-- Attributes on two lines: behind them, the lexer is on the second one. -/
theorem line_of_trail_attributes :
    let env : Setting := ({ validator := fun _ => none } : Setting).nesting maxInterpolationDepth
    let start : Lexer := { rest := normalize "(a\r\n)\np" }
    ∃ passed s, env.Trail start passed s ∧ s.rest = "\np".toList ∧ passed ≠ [] ∧ ∃ consumed,
      normalize "(a\r\n)\np" = consumed ++ s.rest ∧ s.line = 1 + consumed.count '\n' := by
  intro env start
  have hstart : env.Trail start [] start := .start
  obtain ⟨s, htrail, hrest, -⟩ := hstart.next (by decide +kernel : _ = some ("\np".toList, 2))
  refine ⟨_, s, htrail, hrest, List.cons_ne_nil _ _, ?_⟩
  obtain ⟨consumed, hcut, -, hline⟩ :=
    line_of_trail none (fun _ => none) _ _ s htrail (by rw [hrest]; decide)
  exact ⟨consumed, hcut, hline.mpr (by decide)⟩

/-- A line break between a plus sign and a name: behind the call, the lexer should be on the second
line, but it is on the first one. -/
theorem line_of_trail_call :
    let env : Setting := ({ validator := fun _ => none } : Setting).nesting maxInterpolationDepth
    let start : Lexer := { rest := normalize "+\nfoo\np" }
    ∃ passed s, env.Trail start passed s ∧ s.rest = "\np".toList ∧ s.line = 1 ∧
      normalize "+\nfoo\np" = "+\nfoo".toList ++ s.rest ∧ 1 + "+\nfoo".toList.count '\n' = 2 := by
  intro env start
  have hstart : env.Trail start [] start := .start
  obtain ⟨s, htrail, hrest, hline⟩ := hstart.next (by decide +kernel : _ = some ("\np".toList, 1))
  exact ⟨_, s, htrail, hrest, hline, by rw [hrest]; decide, by decide⟩

end PugTemplate
