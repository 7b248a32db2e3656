import PugTemplate.Proofs.Script.Following
import PugTemplate.Proofs.Script.Levels
/-!
# The end of a block comment

A block comment is left at a slash if the character before it is a star, and the star that opens the
comment counts. So a slash right behind the opener ends the comment. Behind any other character it
ends with the first star and slash of its text.
-/

namespace PugTemplate

open List
namespace Nesting

/-! ## The first end in a text -/

/-- The text ends with a star and a slash, and they stand next to each other nowhere before. -/
def FirstEnd (cs : List Char) : Prop := ['*', '/'] <:+ cs ∧ ¬['*', '/'] <:+: cs.dropLast

theorem firstEnd_cons_cons (c d : Char) (cs : List Char) :
    FirstEnd (c :: d :: cs) ↔ if c = '*' ∧ d = '/' then cs = [] else FirstEnd (d :: cs) := by
  unfold FirstEnd
  rw [dropLast_cons_of_ne_nil (cons_ne_nil d cs), infix_cons_iff, suffix_cons_iff]
  split
  · next h =>
    obtain ⟨rfl, rfl⟩ := h
    cases cs <;> simp
  · next h =>
    have hn : ['*', '/'] ≠ c :: d :: cs := by
      intro heq
      cases heq
      exact h ⟨rfl, rfl⟩
    have hf : ¬['*', '/'] <+: c :: (d :: cs).dropLast := by
      intro hf
      obtain ⟨rfl, hs⟩ := cons_prefix_cons.mp hf
      obtain ⟨rfl, -⟩ := cons_prefix_cons.mp (hs.trans ( dropLast_prefix _))
      exact h ⟨rfl, rfl⟩
    simp only [hn, hf, false_or]

/-! ## Leaving a level -/

namespace State

variable {s t : State} {levels : List Context} {cs : List Char} {c : Char} {trail : Trail}

/-- The text leads out of the innermost level with its last character. -/
def Leaves (s : State) (cs : List Char) : Prop :=
  (∃ t, s.pushAll cs = some t ∧ t.stack = s.stack.tail) ∧
    ∀ part, part <+: cs → part ≠ cs → ∃ t, s.pushAll part = some t ∧ t.stack = s.stack

theorem Ordered.pushAll (h : s.Ordered) (ht : s.pushAll cs = some t) : t.Ordered := by
  induction cs generalizing s with
  | nil => cases ht; exact h
  | cons c cs ih =>
    obtain ⟨next, hn, hr⟩ := Option.bind_eq_some_iff.mp ht
    rw [push_eq_feed] at hn
    split at hn
    · cases hn
      exact ih (h.feed c) hr
    · cases hn

theorem Ordered.shows_comment (h : s.Ordered) (hs : s.current = some .blockComment) :
    s.Shows (.blockComment :: s.stack.tail) false ⟨s.history, s.dollar⟩ where
  stack := (cons_head?_tail hs).symm
  regexStart := by
    by_contra hst
    rw [(h.regexStart (by simpa using hst)).1] at hs
    cases hs
  escaped := by
    by_contra hes
    obtain ⟨level, hl, hq⟩ := h.escaped (by simpa using hes)
    cases hl.symm.trans hs
    cases hq
  history := rfl
  dollar := rfl

theorem leaves_cons (hn : s.push c = some t) (hs : t.stack = s.stack) :
    s.Leaves (c :: cs) ↔ t.Leaves cs := by
  have hp (part : List Char) : s.pushAll (c :: part) = t.pushAll part := by
    rw [pushAll_cons, hn]
    rfl
  unfold Leaves
  rw [hp, hs]
  refine and_congr Iff.rfl ⟨fun h part hpa hne => ?_, fun h part hpa hne => ?_⟩
  · rw [← hp]
    exact h (c :: part) ((prefix_cons_inj c).mpr hpa) (by simpa using hne)
  · rcases prefix_cons_iff.mp hpa with rfl | ⟨more, rfl, hm⟩
    · exact ⟨s, rfl, rfl⟩
    · rw [hp]
      exact h more hm (by simpa using hne)

/-- **A block comment** is left at the first slash behind a star, where the last character that was
read counts too. -/
theorem leaves_comment_iff (hs : s.Shows (.blockComment :: levels) false trail)
    (hl : s.last = some c) : s.Leaves cs ↔ FirstEnd (c :: cs) := by
  have hsta : levels ≠ s.stack := by
    rw [hs.stack]
    exact (cons_ne_self _ _).symm
  induction cs generalizing s c with
  | nil =>
    have hsho : ¬FirstEnd [c] := fun h => absurd h.1.length_le (by simp)
    refine iff_of_false ?_ hsho
    rintro ⟨⟨t, ht, hst⟩, -⟩
    cases ht
    rw [hs.stack] at hst
    exact cons_ne_self _ _ hst
  | cons d cs ih =>
    obtain ⟨next, hn, hl', hsh⟩ := push_blockComment hs d
    have hp : s.pushAll [d] = some next := by rw [pushAll_cons, hn]; rfl
    rw [firstEnd_cons_cons]
    split
    · next h =>
      obtain ⟨rfl, rfl⟩ := h
      rw [hl] at hsh
      constructor
      · rintro ⟨-, hpa⟩
        by_contra hne
        obtain ⟨t, ht, hst⟩ := hpa ['/'] ⟨cs, rfl⟩ (by simpa using hne)
        cases hp.symm.trans ht
        exact hsta (hsh.stack.symm.trans hst)
      · rintro rfl
        refine ⟨⟨next, hp, by rw [hsh.stack, hs.stack]; rfl⟩, fun part hpar hne => ?_⟩
        rcases prefix_cons_iff.mp hpar with rfl | ⟨more, rfl, hm⟩
        · exact ⟨s, rfl, rfl⟩
        · exact absurd (by rw [prefix_nil.mp hm]) hne
    · next h =>
      rw [hl, if_neg (by simpa using h)] at hsh
      have hst := hsh.stack.trans hs.stack.symm
      rw [leaves_cons hn hst]
      exact ih hsh hl' (hst ▸ hsta)

end State

/-! ## Comments of a text -/

/-- A scan of the text enters a block comment with the star at the end. -/
structure OpensComment (text : List Char) (s : State) : Prop where
  star : text.getLast? = some '*'
  outside : ∃ t, scan text.dropLast = .ok t ∧ t.current ≠ some .blockComment
  scanned : scan text = .ok s
  inside : s.current = some .blockComment

/-- A scan of the text and of more leaves the innermost level of a state with the last character. -/
def LeavesBehind (text : List Char) (s : State) (body : List Char) : Prop :=
  (∃ t, scan (text ++ body) = .ok t ∧ t.stack = s.stack.tail) ∧
    ∀ part, part <+: body → part ≠ body → ∃ t, scan (text ++ part) = .ok t ∧ t.stack = s.stack

/-- **The end of a block comment.** It is the first star and slash of its text, unless a slash stands
right behind the opener: then it is that slash. -/
theorem leavesBehind_iff {text : List Char} {s : State} (h : OpensComment text s)
    (body : List Char) :
    LeavesBehind text s body ↔
      if body.head? = some '/' then body = ['/'] else FirstEnd body := by
  obtain ⟨front, rfl⟩ := getLast?_eq_some_iff.mp h.star
  have hs := State.scanFrom_eq_ok_iff.mp h.scanned
  have hlast : s.last = some '*' := by
    rw [State.pushAll_append] at hs
    obtain ⟨t, -, ht⟩ := Option.bind_eq_some_iff.mp hs
    obtain ⟨next, hnext, hend⟩ := Option.bind_eq_some_iff.mp ht
    cases hend
    obtain ⟨inner, -, rfl⟩ := Option.map_eq_some_iff.mp hnext
    rfl
  have hscan (part : List Char) (t : State) :
      scan (front ++ ['*'] ++ part) = .ok t ↔ s.pushAll part = some t := by
    rw [scan, State.scanFrom_eq_ok_iff, State.pushAll_append, hs]
    rfl
  have hleaves : LeavesBehind (front ++ ['*']) s body ↔ s.Leaves body := by
    simp only [LeavesBehind, State.Leaves, hscan]
  rw [hleaves, State.leaves_comment_iff ((State.ordered_empty.pushAll hs).shows_comment h.inside) hlast]
  cases body with
  | nil => exact iff_of_false (fun h => absurd h.1 (by decide)) fun h => absurd h.1 (by decide)
  | cons c cs =>
    rw [firstEnd_cons_cons]
    by_cases hc : c = '/' <;> simp [hc]

/-- A comment with a star in it ends at its second star. -/
theorem leavesBehind_star :
    OpensComment "a /*".toList (State.after "a /*".toList) ∧
      LeavesBehind "a /*".toList (State.after "a /*".toList) "* b*/".toList := by
  have h : OpensComment "a /*".toList (State.after "a /*".toList) :=
    ⟨by decide, ⟨State.after "a /".toList, by decide, by decide⟩, by decide, by decide⟩
  exact ⟨h, (leavesBehind_iff h _).mpr (by unfold FirstEnd; decide)⟩

/-- The star of the opener and a slash end a comment, although its text holds no star. -/
theorem leavesBehind_opener :
    OpensComment "/*".toList (State.after "/*".toList) ∧
      LeavesBehind "/*".toList (State.after "/*".toList) ['/'] ∧ ¬FirstEnd ['/'] := by
  refine ⟨⟨by decide, ⟨State.after "/".toList, by decide, by decide⟩, by decide, by decide⟩,
    ⟨⟨State.after "/*/".toList, by decide, by decide⟩, ?_⟩, fun h => absurd h.1 (by decide)⟩
  intro part hpart hne
  rcases prefix_cons_iff.mp hpart with rfl | ⟨more, rfl, hmore⟩
  · exact ⟨State.after "/*".toList, by decide, rfl⟩
  · exact absurd (by rw [prefix_nil.mp hmore]) hne

end Nesting
end PugTemplate
