import PugTemplate.Script.Nesting
import Mathlib.Data.List.Chain
/-!
# Levels of nesting

What is open in a script stands in a certain order: only brackets and templates have other levels
inside of them, and inside of a template that is the bracket of a substitution. The flags of a state
belong to its innermost level. One character opens or closes one level at most, and a character is
refused only in code, where it changes nothing.
-/

namespace PugTemplate

open List
namespace Nesting

/-! ## Levels inside of each other -/

/-- Which level may stand directly inside of another. -/
def Context.holds (outer inner : Context) : Prop :=
  (∃ closer, outer = .bracket closer) ∨ (outer = .templateQuote ∧ inner = .bracket '}')

def Context.hasEscapes : Context → Bool
  | .singleQuote | .doubleQuote | .templateQuote | .regex => true
  | _ => false

def Context.isEnclosing : Context → Bool
  | .bracket _ | .templateQuote => true
  | _ => false

theorem Context.holds.isEnclosing {outer inner : Context} (h : outer.holds inner) :
    outer.isEnclosing := by
  rcases h with ⟨closer, rfl⟩ | ⟨rfl, _⟩ <;> rfl

namespace State

/-- The state is in code: nothing is open, or the innermost level is a bracket. -/
def InCode (s : State) : Prop := s.current = none ∨ ∃ closer, s.current = some (.bracket closer)

/-- The order of the levels, and the levels that the flags belong to. -/
structure Ordered (s : State) : Prop where
  levels : s.stack.IsChain fun inner outer => outer.holds inner
  regexStart : s.regexStart = true → s.current = some .regex ∧ s.escaped = false
  escaped : s.escaped = true → ∃ level, s.current = some level ∧ level.hasEscapes = true
  /-- A dollar sign that counts is not escaped. -/
  dollar : s.escaped = true → s.current = some .templateQuote → s.dollar = false

theorem ordered_empty : Ordered {} where
  levels := IsChain.nil
  regexStart := by intro h; cases h
  escaped := by intro h; cases h
  dollar := by intro h; cases h

variable {s t next : State} {level : Context} {c : Char}

theorem Ordered.escaped_of_inCode (h : s.Ordered) (hc : s.InCode) : s.escaped = false := by
  by_contra hes
  obtain ⟨level, hl, hq⟩ := h.escaped (by simpa using hes)
  rcases hc with hn | ⟨closer, hb⟩
  · rw [hn] at hl
    cases hl
  · rw [hb] at hl
    cases hl
    cases hq

/-! ## Ways to change the levels -/

theorem Ordered.congr (h : s.Ordered) (hs : t.stack = s.stack)
    (hst : t.regexStart = s.regexStart) (hes : t.escaped = s.escaped)
    (hd : t.dollar = s.dollar) : t.Ordered := by
  have hc : t.current = s.current := by rw [current, current, hs]
  refine ⟨?_, ?_, ?_, ?_⟩
  · rw [hs]; exact h.levels
  · rw [hst, hc, hes]; exact h.regexStart
  · rw [hes, hc]; exact h.escaped
  · rw [hes, hc, hd]; exact h.dollar

theorem ordered_of_quoted (hl : s.stack.IsChain fun inner outer => outer.holds inner)
    (hs : s.regexStart = false) (hc : s.current = some level)
    (hq : level.hasEscapes) (hd : level = .templateQuote → s.dollar = false) :
    s.Ordered where
  levels := hl
  regexStart := by rw [hs]; intro h; cases h
  escaped _ := ⟨level, hc, hq⟩
  dollar _ ht := hd (Option.some.inj (hc.symm.trans ht))

theorem ordered_of_unflagged (hl : s.stack.IsChain fun inner outer => outer.holds inner)
    (hs : s.regexStart = false) (hes : s.escaped = false) : s.Ordered where
  levels := hl
  regexStart := by rw [hs]; intro h; cases h
  escaped := by rw [hes]; intro h; cases h
  dollar := by rw [hes]; intro h; cases h

theorem Ordered.isChain_enter (h : s.Ordered) (hc : s.InCode) (level : Context) :
    (s.enter level).stack.IsChain fun inner outer => outer.holds inner := by
  show (level :: s.stack).IsChain _
  rw [isChain_cons]
  refine ⟨?_, h.levels⟩
  intro outer ho
  rcases hc with hn | ⟨closer, hb⟩
  · rw [show s.stack.head? = none from hn] at ho
    cases ho
  · rw [show s.stack.head? = some (.bracket closer) from hb] at ho
    cases ho
    exact Or.inl ⟨closer, rfl⟩

theorem Ordered.isChain_leave (h : s.Ordered) :
    s.leave.stack.IsChain fun inner outer => outer.holds inner := h.levels.tail

/-- Below a level that is neither a bracket nor the start of a template there is code. -/
theorem Ordered.inCode_leave (h : s.Ordered) (hc : s.current = some level)
    (hle : level ≠ .bracket '}') : s.leave.InCode := by
  have hs : s.stack = level :: s.stack.tail := eq_cons_of_mem_head? hc
  have hl := h.levels
  rw [hs, isChain_cons] at hl
  cases hh : s.stack.tail.head? with
  | none => exact Or.inl hh
  | some outer =>
    rcases hl.1 outer hh with ⟨closer, rfl⟩ | ⟨-, hi⟩
    · exact Or.inr ⟨closer, hh⟩
    · exact absurd hi hle

/-! ## Depth -/

/-- A character opens or closes one level at most. -/
def Near (s t : State) : Prop := t.depth ≤ s.depth + 1 ∧ s.depth ≤ t.depth + 1

theorem near_of_stack (h : t.stack = s.stack) : s.Near t := by
  unfold Near depth
  rw [h]
  omega

theorem near_leave (s : State) : s.Near s.leave := by
  have hd : s.leave.depth = s.depth - 1 := length_tail
  unfold Near
  omega

/-! ## One character -/

def isCloser (c : Char) : Bool := c == ')' || c == ']' || c == '}'

theorem regexStart_settleRegex (s : State) (c : Char) : (s.settleRegex c).regexStart = false := by
  unfold settleRegex
  cases h : s.regexStart with
  | true => rfl
  | false => exact h

theorem settleRegex_of_false (h : s.regexStart = false) (c : Char) : s.settleRegex c = s := by
  unfold settleRegex
  rw [h]
  rfl

/-- The slash of a regular expression stands in code, whatever becomes of it. -/
theorem Ordered.settleRegex (h : s.Ordered) (c : Char) : (s.settleRegex c).Ordered := by
  cases hs : s.regexStart with
  | false => rw [settleRegex_of_false hs]; exact h
  | true =>
    obtain ⟨-, hes⟩ := h.regexStart hs
    refine ordered_of_unflagged ?_ (regexStart_settleRegex s c) ?_ <;>
      simp only [State.settleRegex, hs, if_true]
    · split
      · exact h.isChain_leave
      · exact h.levels
    · split <;> exact hes

theorem Ordered.inQuotes (h : s.Ordered) (hc : s.current = some level)
    (hq : level.hasEscapes) (ht : level ≠ .templateQuote)
    (hs : s.regexStart = false) (terminator c : Char) :
    (s.inQuotes terminator c).Ordered ∧ s.Near (s.inQuotes terminator c) := by
  unfold State.inQuotes
  split
  · next hen =>
    simp only [Bool.and_eq_true, Bool.not_eq_true'] at hen
    exact ⟨ordered_of_unflagged h.isChain_leave hs hen.2, near_leave s⟩
  · exact ⟨ordered_of_quoted h.levels hs hc hq fun heq => absurd heq ht, near_of_stack rfl⟩

/-- A character of a template. Only a dollar sign that is not escaped opens a substitution. -/
theorem Ordered.inTemplate (h : s.Ordered) (hc : s.current = some .templateQuote)
    (hs : s.regexStart = false) (c : Char) :
    (s.inTemplate c).Ordered ∧ s.Near (s.inTemplate c) := by
  unfold State.inTemplate
  split
  · next hen =>
    simp only [Bool.and_eq_true, Bool.not_eq_true'] at hen
    exact ⟨ordered_of_unflagged h.isChain_leave hs hen.2, near_leave s⟩
  split
  · exact ⟨ordered_of_quoted h.levels hs hc rfl fun _ => rfl, near_of_stack rfl⟩
  split
  · next hsi =>
    simp only [Bool.and_eq_true, Bool.not_eq_true'] at hsi
    exact ⟨ordered_of_unflagged h.levels hs hsi.2, near_of_stack rfl⟩
  split
  · next ho =>
    simp only [Bool.and_eq_true] at ho
    -- an escaped character would have reset the dollar sign
    have hes : s.escaped = false := by
      by_contra hco
      have hr := h.dollar (by simpa using hco) hc
      rw [hr] at ho
      exact absurd ho.2 (by decide)
    refine ⟨ordered_of_unflagged ?_ hs hes, Nat.le_refl _, Nat.le_add_right _ 2⟩
    show (Context.bracket '}' :: s.stack).IsChain _
    rw [isChain_cons]
    refine ⟨?_, h.levels⟩
    intro outer hou
    rw [show s.stack.head? = some .templateQuote from hc] at hou
    cases hou
    exact Or.inr ⟨rfl, rfl⟩
  · exact ⟨ordered_of_unflagged h.levels hs rfl, near_of_stack rfl⟩

/-- What a character of code does: it changes no level, opens one, or closes the bracket that it
fits. -/
inductive Coded (s : State) (c : Char) (next : State) : Prop where
  | keep (hstack : next.stack = s.stack) (hstart : next.regexStart = s.regexStart)
  | enter (level : Context) (hstack : next.stack = level :: s.stack)
      (hstart : next.regexStart = true → s.regexStart = true ∨ level = .regex)
  | leave (hcloser : isCloser c = true) (hfits : s.current = some (.bracket c))
      (hstack : next.stack = s.stack.tail) (hstart : next.regexStart = s.regexStart)

theorem Coded.near (h : Coded s c next) : s.Near next := by
  cases h with
  | keep hs _ => exact near_of_stack hs
  | enter level hs _ => unfold Near depth; rw [hs, length_cons]; omega
  | leave _ _ hs _ => unfold Near depth; rw [hs, length_tail]; omega

theorem inCode_of_isCloser (hc : isCloser c) (s : State) :
    s.inCode c = if s.current == some (.bracket c) then some s.leave else none := by
  simp only [isCloser, Bool.or_eq_true, beq_iff_eq] at hc
  rcases hc with (rfl | rfl) | rfl <;> rfl

theorem inCode_spec (s : State) (c : Char) :
    (s.inCode c = none ∧ isCloser c ∧ s.current ≠ some (.bracket c)) ∨
    ∃ next, s.inCode c = some next ∧ Coded s c next ∧ next.escaped = s.escaped ∧
      (isCloser c → s.current = some (.bracket c)) := by
  by_cases ho : c = '(' ∨ c = '[' ∨ c = '{'
  · refine Or.inr ?_
    rcases ho with rfl | rfl | rfl
    · exact ⟨_, rfl, .enter (.bracket ')') rfl Or.inl, rfl, by intro h; cases h⟩
    · exact ⟨_, rfl, .enter (.bracket ']') rfl Or.inl, rfl, by intro h; cases h⟩
    · exact ⟨_, rfl, .enter (.bracket '}') rfl Or.inl, rfl, by intro h; cases h⟩
  by_cases hc : isCloser c
  · have heq := inCode_of_isCloser hc s
    by_cases hf : s.current = some (.bracket c)
    · refine Or.inr ⟨s.leave, ?_, .leave hc hf rfl rfl, rfl, fun _ => hf⟩
      rw [heq, if_pos (beq_iff_eq.mpr hf)]
    · refine Or.inl ⟨?_, hc, hf⟩
      rw [heq, if_neg (by simpa using hf)]
  refine Or.inr ?_
  by_cases hs : c = '/'
  · subst hs
    show ∃ next, (if s.history.head? == some '/' then
      some { s.enter .lineComment with history := s.history.tail }
      else if startsRegex s.history then some { s.enter .regex with regexStart := true }
      else some s) = some next ∧ _
    split
    · exact ⟨_, rfl, .enter .lineComment rfl Or.inl, rfl, by intro h; cases h⟩
    split
    · exact ⟨_, rfl, .enter .regex rfl fun _ => Or.inr rfl, rfl, by intro h; cases h⟩
    · exact ⟨_, rfl, .keep rfl rfl, rfl, by intro h; cases h⟩
  by_cases hst : c = '*'
  · subst hst
    show ∃ next, (if s.history.head? == some '/' then
      some { s.enter .blockComment with history := s.history.tail } else some s) = some next ∧ _
    split
    · exact ⟨_, rfl, .enter .blockComment rfl Or.inl, rfl, by intro h; cases h⟩
    · exact ⟨_, rfl, .keep rfl rfl, rfl, by intro h; cases h⟩
  by_cases hq : c = '\'' ∨ c = '"' ∨ c = '\x60'
  · rcases hq with rfl | rfl | rfl
    · exact ⟨_, rfl, .enter .singleQuote rfl Or.inl, rfl, by intro h; cases h⟩
    · exact ⟨_, rfl, .enter .doubleQuote rfl Or.inl, rfl, by intro h; cases h⟩
    · exact ⟨_, rfl, .enter .templateQuote rfl Or.inl, rfl, by intro h; cases h⟩
  -- any other character has no meaning here
  refine ⟨s, ?_, .keep rfl rfl, rfl, fun h => absurd h hc⟩
  simp only [not_or] at ho hq
  simp only [isCloser, Bool.or_eq_true, beq_iff_eq, not_or] at hc
  simp [inCode, ho, hc, hs, hst, hq]

theorem coded_inCode (h : s.inCode c = some next) : Coded s c next ∧ next.escaped = s.escaped := by
  rcases inCode_spec s c with ⟨hn, -⟩ | ⟨found, hf, hc, hes, -⟩
  · rw [hn] at h
    cases h
  · rw [hf] at h
    cases h
    exact ⟨hc, hes⟩

theorem inCode_eq_none_iff (s : State) (c : Char) :
    s.inCode c = none ↔ isCloser c ∧ s.current ≠ some (.bracket c) := by
  rcases inCode_spec s c with ⟨hn, hc, ho⟩ | ⟨next, hne, -, -, hf⟩
  · exact ⟨fun _ => ⟨hc, ho⟩, fun _ => hn⟩
  · rw [hne]
    constructor
    · intro h
      cases h
    · rintro ⟨hc, ho⟩
      exact absurd (hf hc) ho

theorem Ordered.inCode (h : s.Ordered) (hc : s.InCode) (hst : s.regexStart = false)
    (hn : s.inCode c = some next) : next.Ordered := by
  obtain ⟨hco, hsa⟩ := coded_inCode hn
  have hes : next.escaped = false := hsa.trans (h.escaped_of_inCode hc)
  cases hco with
  | keep hs hk =>
    refine ordered_of_unflagged ?_ (hk.trans hst) hes
    rw [hs]
    exact h.levels
  | enter level hs hsta =>
    have hl : next.stack.IsChain fun inner outer => outer.holds inner := by
      rw [hs]
      exact h.isChain_enter hc level
    refine ⟨hl, ?_, ?_, ?_⟩
    · intro hno
      rcases hsta hno with hb | rfl
      · rw [hst] at hb
        cases hb
      · exact ⟨by rw [current, hs]; rfl, hes⟩
    · rw [hes]
      intro hf
      cases hf
    · rw [hes]
      intro hf
      cases hf
  | leave _ _ hs hk =>
    refine ordered_of_unflagged ?_ (hk.trans hst) hes
    rw [hs]
    exact h.isChain_leave

/-- **A character at the innermost level** keeps the order of the levels, and changes the depth by one
at most. -/
theorem Ordered.inContext (h : s.Ordered) (hs : s.regexStart = false)
    (hn : s.inContext c = some next) : next.Ordered ∧ s.Near next := by
  unfold State.inContext at hn
  -- a comment has no flags, so that leaving it or not is all the same
  have hco (level : Context) (hc : s.current = some level)
      (hp : level.hasEscapes = false) : s.escaped = false := by
    by_contra hcon
    obtain ⟨found, hf, hq⟩ := h.escaped (by simpa using hcon)
    rw [hc] at hf
    cases hf
    rw [hp] at hq
    cases hq
  cases hc : s.current with
  | none =>
    rw [hc] at hn
    exact ⟨h.inCode (Or.inl hc) hs hn, (coded_inCode hn).1.near⟩
  | some level =>
    rw [hc] at hn
    cases level with
    | lineComment | blockComment =>
      cases hn
      split
      · exact ⟨ordered_of_unflagged h.isChain_leave hs (hco _ hc rfl), near_leave s⟩
      · exact ⟨h, near_of_stack rfl⟩
    | singleQuote | doubleQuote | regex =>
      cases hn; exact h.inQuotes hc rfl (by rintro ⟨⟩) hs _ c
    | templateQuote => cases hn; exact h.inTemplate hc hs c
    | bracket closer =>
      exact ⟨h.inCode (Or.inr ⟨closer, hc⟩) hs hn, (coded_inCode hn).1.near⟩

/-! ## Refusals -/

theorem inContext_eq_none_iff (s : State) (c : Char) :
    s.inContext c = none ↔ s.InCode ∧ isCloser c ∧ s.current ≠ some (.bracket c) := by
  unfold inContext InCode
  cases hc : s.current with
  | none => simp [inCode_eq_none_iff, hc]
  | some level => cases level <;> simp [inCode_eq_none_iff, hc]

/-- The state in which the innermost level gets a character, with the character remembered. -/
def settled (s : State) (c : Char) : State := { s.settleRegex c with taken := c :: s.taken }

theorem Ordered.settled (h : s.Ordered) (c : Char) : (s.settled c).Ordered :=
  (h.settleRegex c).congr rfl rfl rfl rfl

/-- The state with a character noted that was accepted at the innermost level. -/
def noted (s next : State) (c : Char) : State :=
  { next with
    history := if next.isComment || s.isComment then next.history else c :: next.history
    last := some c }

theorem feed_of_some (h : (s.settled c).inContext c = some next) :
    s.feed c = (true, s.noted next c) := by
  unfold settled at h
  simp only [feed, h, noted]

theorem feed_of_none (h : (s.settled c).inContext c = none) : s.feed c = (false, s.settled c) := by
  unfold settled at h ⊢
  simp only [feed, h]

theorem inContext_taken (s : State) (c : Char) (t : List Char) :
    ({ s with taken := t } : State).inContext c =
      (s.inContext c).map fun next => { next with taken := t } := by
  have hco : ({ s with taken := t } : State).inCode c =
      (s.inCode c).map fun next => { next with taken := t } := by
    unfold inCode
    simp only [apply_ite (Option.map _), Option.map_some, Option.map_none]
    rfl
  have hq (terminator : Char) : ({ s with taken := t } : State).inQuotes terminator c =
      { s.inQuotes terminator c with taken := t } := by
    unfold inQuotes
    split <;> rfl
  have ht : ({ s with taken := t } : State).inTemplate c =
      { s.inTemplate c with taken := t } := by
    unfold inTemplate
    simp only [apply_ite (fun next : State => { next with taken := t })]
    rfl
  unfold inContext
  have hc : ({ s with taken := t } : State).current = s.current := rfl
  rw [hc]
  cases s.current with
  | none => exact hco
  | some level =>
    cases level with
    | bracket closer => exact hco
    | singleQuote | doubleQuote | regex => exact congrArg some (hq _)
    | templateQuote => exact congrArg some ht
    | lineComment | blockComment =>
      simp only [Option.map_some, apply_ite (fun next : State => { next with taken := t })]
      rfl

/-- **Both ways to take a character agree:** what is accepted by one is accepted by the other, with
the same state. -/
theorem push_eq_feed (s : State) (c : Char) :
    s.push c = if (s.feed c).1 then some (s.feed c).2 else none := by
  have ht : (s.settled c).inContext c =
      ((s.settleRegex c).inContext c).map fun next => { next with taken := c :: s.taken } :=
    inContext_taken _ c _
  unfold push
  cases hn : (s.settleRegex c).inContext c with
  | none =>
    rw [hn] at ht
    rw [feed_of_none ht]
    rfl
  | some next =>
    rw [hn] at ht
    rw [feed_of_some ht]
    rfl

theorem settled_of_isCloser (hcl : isCloser c) : (s.settled c).stack = s.stack := by
  unfold settled settleRegex
  cases s.regexStart with
  | false => rfl
  | true =>
    have hc : (c == '/' || c == '*') = false := by
      simp only [isCloser, Bool.or_eq_true, beq_iff_eq] at hcl
      rcases hcl with (rfl | rfl) | rfl <;> rfl
    simp only [if_true, hc]
    rfl

/-- **Refusals.** A character is refused exactly if it is a closing bracket in code and the innermost
bracket is another one, or there is none. -/
theorem feed_eq_false_iff (s : State) (c : Char) :
    (s.feed c).1 = false ↔ isCloser c ∧ s.InCode ∧ s.current ≠ some (.bracket c) := by
  have hr : (s.feed c).1 = false ↔ (s.settled c).inContext c = none := by
    cases hn : (s.settled c).inContext c with
    | none => simp [feed_of_none hn]
    | some next => simp [feed_of_some hn]
  rw [hr, inContext_eq_none_iff]
  by_cases hc : isCloser c
  · have hcu : (s.settled c).current = s.current := by
      rw [current, current, settled_of_isCloser hc]
    unfold InCode
    rw [hcu]
    exact ⟨fun ⟨hco, _, ho⟩ => ⟨hc, hco, ho⟩, fun ⟨_, hco, ho⟩ => ⟨hco, hc, ho⟩⟩
  · exact ⟨fun h => absurd h.2.1 hc, fun h => absurd h.1 hc⟩

/-- **A refused character changes nothing** but the text that is remembered. -/
theorem Ordered.feed_refused (h : s.Ordered) (hr : (s.feed c).1 = false) :
    (s.feed c).2 = s.refuse c := by
  obtain ⟨-, hco, -⟩ := (feed_eq_false_iff s c).mp hr
  -- in code there is no slash that waits for its next character
  have hs : s.regexStart = false := by
    by_contra hc
    obtain ⟨hre, -⟩ := h.regexStart (by simpa using hc)
    rcases hco with hno | ⟨closer, hb⟩
    · rw [hno] at hre; cases hre
    · rw [hb] at hre; cases hre
  cases hn : (s.settled c).inContext c with
  | some next =>
    rw [feed_of_some hn] at hr
    cases hr
  | none =>
    rw [feed_of_none hn]
    rw [State.settled, settleRegex_of_false hs]
    rfl

theorem inContext_of_inCode (h : s.InCode) (c : Char) : s.inContext c = s.inCode c := by
  unfold inContext
  rcases h with hn | ⟨closer, hb⟩
  · rw [hn]
  · rw [hb]

/-- **One character changes the depth by one** at most. A slash that turns out to start a comment
closes one level and opens another. -/
theorem Ordered.near_feed (h : s.Ordered) (c : Char) : s.Near (s.feed c).2 := by
  have hfe (hs : s.Near (s.settled c))
      (hn : ∀ next, (s.settled c).inContext c = some next → s.Near next) :
      s.Near (s.feed c).2 := by
    cases hf : (s.settled c).inContext c with
    | none => rw [feed_of_none hf]; exact hs
    | some next => rw [feed_of_some hf]; exact hn next hf
  by_cases hco : s.regexStart ∧ (c = '/' ∨ c = '*')
  · obtain ⟨hsta, hc⟩ := hco
    obtain ⟨hr, -⟩ := h.regexStart hsta
    have hsl : (c == '/' || c == '*') = true := by simpa using hc
    have hs : (s.settled c).stack = s.stack.tail := by
      simp only [State.settled, State.settleRegex, hsta, hsl, if_true]
      rfl
    have hd : s.depth = (s.settled c).depth + 1 := by
      have hst : s.stack = .regex :: s.stack.tail := eq_cons_of_mem_head? hr
      rw [depth, depth, hs, hst]
      rfl
    have hcod : (s.settled c).InCode := by
      have hl := h.inCode_leave hr (by rintro ⟨⟩)
      unfold InCode current at hl ⊢
      rw [hs]
      exact hl
    refine hfe (by unfold Near; omega) fun next hn => ?_
    rw [inContext_of_inCode hcod] at hn
    unfold Near
    -- it is no closing bracket, so that it cannot close a level below the regular expression
    cases (coded_inCode hn).1 with
    | keep hst _ =>
      have hsa : next.depth = (s.settled c).depth := congrArg length hst
      omega
    | enter level hst _ =>
      have hm : next.depth = (s.settled c).depth + 1 := congrArg length hst
      omega
    | leave hcl _ _ _ =>
      rcases hc with rfl | rfl <;> exact absurd hcl (by decide)
  · have hs : (s.settled c).stack = s.stack := by
      unfold State.settled State.settleRegex
      cases hsta : s.regexStart with
      | false => rfl
      | true =>
        have hc : (c == '/' || c == '*') = false := by
          rw [Bool.eq_false_iff]
          intro hsl
          exact hco ⟨hsta, by simpa using hsl⟩
        simp only [if_true, hc]
        rfl
    have hd : (s.settled c).depth = s.depth := congrArg length hs
    refine hfe (near_of_stack hs) fun next hn => ?_
    have hne := ((h.settled c).inContext (regexStart_settleRegex s c) hn).2
    unfold Near at hne ⊢
    rwa [hd] at hne

/-! ## Texts -/

/-- **One character keeps the order** of the levels, whether it is refused or not. -/
theorem Ordered.feed (h : s.Ordered) (c : Char) : (s.feed c).2.Ordered := by
  have hs := h.settled c
  have hst : (s.settled c).regexStart = false := regexStart_settleRegex s c
  cases hn : (s.settled c).inContext c with
  | none =>
    rw [feed_of_none hn]
    exact hs
  | some next =>
    rw [feed_of_some hn]
    exact (hs.inContext hst hn).1.congr rfl rfl rfl rfl

/-- The state after characters, going on after those that are refused. -/
def after (cs : List Char) : State := cs.foldl (fun s c => (s.feed c).2) {}

theorem after_concat (cs : List Char) (c : Char) : after (cs ++ [c]) = ((after cs).feed c).2 :=
  foldl_concat _ _ _ _

theorem ordered_after (cs : List Char) : (after cs).Ordered := by
  induction cs using reverseRecOn with
  | nil => exact ordered_empty
  | append_singleton cs c ih =>
    rw [after_concat]
    exact ih.feed c

theorem Ordered.isEnclosing (h : s.Ordered) (hm : level ∈ s.stack.tail) : level.isEnclosing := by
  obtain ⟨inner, outer, ho⟩ := append_of_mem hm
  cases hs : s.stack with
  | nil => rw [hs] at hm; cases hm
  | cons first rest =>
    -- some level stands inside of it
    have hl := h.levels
    rw [hs] at ho hl
    rw [show rest = inner ++ level :: outer from ho, ← cons_append] at hl
    obtain ⟨before, above, ha⟩ : ∃ before above, first :: inner = before ++ [above] :=
      ⟨(first :: inner).dropLast, (first :: inner).getLast (by simp),
        (dropLast_append_getLast (by simp)).symm⟩
    rw [ha, append_assoc] at hl
    have hp := IsChain.right_of_append hl
    exact ((isChain_cons_cons.mp hp).1).isEnclosing

theorem Ordered.eq_of_above_template (h : s.Ordered) {inner outer : List Context}
    {above : Context} (hs : s.stack = inner ++ above :: .templateQuote :: outer) :
    above = .bracket '}' := by
  have hl := h.levels
  rw [hs] at hl
  rcases (isChain_cons_cons.mp hl.right_of_append).1 with ⟨closer, hb⟩ | ⟨-, ha⟩
  · cases hb
  · exact ha

/-- **The discipline of the levels.** After every text, and for every character that comes next: the
levels are in order, each flag belongs to the innermost level, the depth changes by one at most, and
the character is refused exactly if it is a closing bracket in code that does not fit, in which case
nothing but the remembered text changes. -/
theorem after_disciplined (cs : List Char) (c : Char) :
    (∀ level ∈ (after cs).stack.tail, (∃ closer, level = .bracket closer) ∨ level = .templateQuote) ∧
    (∀ inner above outer, (after cs).stack = inner ++ above :: .templateQuote :: outer →
      above = .bracket '}') ∧
    ((after cs).regexStart = true → (after cs).current = some .regex) ∧
    ((after cs).escaped = true →
      (after cs).isString = true ∨ (after cs).current = some .regex) ∧
    (after (cs ++ [c])).depth ≤ (after cs).depth + 1 ∧
    (after cs).depth ≤ (after (cs ++ [c])).depth + 1 ∧
    (((after cs).feed c).1 = false ↔
      (c = ')' ∨ c = ']' ∨ c = '}') ∧
      ((after cs).stack = [] ∨ ∃ closer, (after cs).current = some (.bracket closer)) ∧
      (after cs).current ≠ some (.bracket c)) ∧
    (((after cs).feed c).1 = false →
      after (cs ++ [c]) = { after cs with taken := c :: (after cs).taken }) := by
  have hordered := ordered_after cs
  refine ⟨?_, ?_, ?_, ?_, ?_, ?_, ?_, ?_⟩
  · intro level hmem
    have henclosing := hordered.isEnclosing hmem
    cases level with
    | bracket closer => exact Or.inl ⟨closer, rfl⟩
    | templateQuote => exact Or.inr rfl
    | _ => cases henclosing
  · intro inner above outer hstack
    exact hordered.eq_of_above_template hstack
  · intro hstart
    exact (hordered.regexStart hstart).1
  · intro hescaped
    obtain ⟨level, hcurrent, hquoted⟩ := hordered.escaped hescaped
    unfold isString
    rw [hcurrent]
    cases level with
    | singleQuote | doubleQuote | templateQuote => exact Or.inl rfl
    | regex => exact Or.inr rfl
    | _ => cases hquoted
  · rw [after_concat]
    exact (hordered.near_feed c).1
  · rw [after_concat]
    exact (hordered.near_feed c).2
  · rw [feed_eq_false_iff]
    have hcloser : isCloser c = true ↔ c = ')' ∨ c = ']' ∨ c = '}' := by
      simp [isCloser, or_assoc]
    rw [hcloser, InCode, current, List.head?_eq_none_iff]
  · intro hrefused
    rw [after_concat]
    exact hordered.feed_refused hrefused

end State
end Nesting
end PugTemplate
