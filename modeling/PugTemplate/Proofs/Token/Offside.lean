import Mathlib.Order.Bounds.Basic
import PugTemplate.Proofs.Token.Fitting
import PugTemplate.Proofs.Token.Runs
import PugTemplate.Proofs.Token.Spellings
/-!
# Lines and the offside rule

Runs of the lexer over known texts. A run is cut into stretches, each from one text that is left to
another; what a stretch adds does not depend on what came before it. At the start of a line, the
widths that are open and the width of the line settle the tokens.
-/

namespace PugTemplate

open List Pattern Lexer

/-! ## The offside rule -/

/-- The widths that are open after the start of a line. -/
def indentsAfter (indents : List Nat) (w : Nat) : List Nat :=
  if indents.headD 0 < w then w :: indents else indents.dropWhile (w < ·)

def lineStart (indents : List Nat) (w : Nat) : List TokenKind :=
  if indents.headD 0 < w then [.indent w]
  else if w < indents.headD 0 then (indents.takeWhile (w < ·)).map fun _ => .outdent
  else [.newline]

/-- The tokens of lines, each with its width and its content, by the widths that are open: a wider
line opens its width, and a narrower one closes what is wider, down to its own width. There are
none if that width is not open. -/
def offside? : List Nat → List (Nat × List TokenKind) → Option (List TokenKind)
  | indents, [] => some (indents.map fun _ => .outdent)
  | indents, (w, content) :: lines =>
    if (indentsAfter indents w).headD 0 = w then
      (offside? (indentsAfter indents w) lines).map (lineStart indents w ++ content ++ ·)
    else none

section

variable {indents : List Nat} {kinds : List TokenKind} {w : Nat} {opened : List Nat}

theorem dropWhile_eq_self (h : indents.headD 0 ≤ w) : indents.dropWhile (w < ·) = indents := by
  cases indents with
  | nil => rfl
  | cons v indents => exact dropWhile_cons_of_neg (by simpa using h)

theorem takeWhile_eq_nil (h : indents.headD 0 ≤ w) : indents.takeWhile (w < ·) = [] := by
  cases indents with
  | nil => rfl
  | cons v indents => exact takeWhile_cons_of_neg (by simpa using h)

/-! A line of the innermost width opens and closes nothing. -/

theorem indentsAfter_same (hw : indents.headD 0 = w) : indentsAfter indents w = indents := by
  rw [indentsAfter, if_neg (by omega), dropWhile_eq_self (by omega)]

theorem lineStart_same (hw : indents.headD 0 = w) : lineStart indents w = [.newline] := by
  rw [lineStart, if_neg (by omega), if_neg (by omega)]

/-! A wider line opens its width. -/

theorem indentsAfter_open (hw : indents.headD 0 < w) : indentsAfter indents w = w :: indents := by
  rw [indentsAfter, if_pos hw]

theorem lineStart_open (hw : indents.headD 0 < w) : lineStart indents w = [.indent w] := by
  rw [lineStart, if_pos hw]

/-! A line of the width around some open ones closes those. -/

theorem indentsAfter_close (ho : ∀ v ∈ opened, w < v) (hw : indents.headD 0 = w) :
    indentsAfter (opened ++ indents) w = indents := by
  have hwi : ¬(opened ++ indents).headD 0 < w := by
    cases opened with
    | nil => exact (Nat.le_of_eq hw.symm).not_gt
    | cons v opened => exact Nat.lt_asymm (ho v (mem_cons_self ..))
  rw [indentsAfter, if_neg hwi, dropWhile_append_of_pos (by simpa using ho),
    dropWhile_eq_self (Nat.le_of_eq hw)]

theorem lineStart_close (hn : opened ≠ []) (ho : ∀ v ∈ opened, w < v) (hw : indents.headD 0 = w) :
    lineStart (opened ++ indents) w = opened.map fun _ => .outdent := by
  have hl : w < (opened ++ indents).headD 0 := by
    cases opened with
    | nil => exact absurd rfl hn
    | cons v opened => exact ho v (mem_cons_self ..)
  rw [lineStart, if_neg (Nat.lt_asymm hl), if_pos hl,
    takeWhile_append_of_pos (by simpa using ho), takeWhile_eq_nil (Nat.le_of_eq hw),
    append_nil]

/-- Lines have these tokens and leave these widths open, whatever follows them. -/
structure Opens (indents : List Nat) (lines : List (Nat × List TokenKind)) (kinds : List TokenKind)
    (indents' : List Nat) : Prop where
  widths : (lines.map (·.1)).foldl indentsAfter indents = indents'
  offside : ∀ more, offside? indents (lines ++ more) = (offside? indents' more).map (kinds ++ ·)

theorem Opens.refl : Opens indents [] [] indents := ⟨rfl, fun more => by simp⟩

theorem Opens.line {w : Nat} (hw : (indentsAfter indents w).headD 0 = w) (content : List TokenKind) :
    Opens indents [(w, content)] (lineStart indents w ++ content) (indentsAfter indents w) :=
  ⟨rfl, fun more => by rw [singleton_append, offside?, if_pos hw]⟩

theorem Opens.trans {indents' indents'' : List Nat} {lines lines' : List (Nat × List TokenKind)}
    {kinds' : List TokenKind} (h : Opens indents lines kinds indents')
    (h' : Opens indents' lines' kinds' indents'') :
    Opens indents (lines ++ lines') (kinds ++ kinds') indents'' := by
  refine ⟨by rw [map_append, foldl_append, h.widths, h'.widths], fun more => ?_⟩
  rw [append_assoc, h.offside, h'.offside]
  simp [Function.comp_def]

/-- What a blank line at the end adds to the end of what is open. -/
def lastBreak (indents : List Nat) (w : Nat) : List TokenKind :=
  if indents.headD 0 < w then [.indent w, .outdent]
  else if w < indents.headD 0 then []
  else [.newline]

/-- Tokens behind a tag that add nothing to it. -/
inductive Idle : List TokenKind → Prop where
  | nil : Idle []
  | newline : Idle [.newline]
  | block (w : Nat) : Idle [.indent w, .outdent]

theorem idle_lastBreak (indents : List Nat) (w : Nat) : Idle (lastBreak indents w) := by
  unfold lastBreak
  split
  · exact .block w
  · split
    · exact .nil
    · exact .newline

theorem headD_indentsAfter_zero (indents : List Nat) : (indentsAfter indents 0).headD 0 = 0 := by
  rw [indentsAfter]
  induction indents with
  | nil => rfl
  | cons v indents ih => by_cases hv : 0 < v <;> simp_all

theorem offside?_lastBreak (hw : (indentsAfter indents w).headD 0 = w) :
    offside? indents [(w, [])] = some (lastBreak indents w ++ indents.map fun _ => .outdent) := by
  rw [offside?, if_pos hw, offside?, Option.map_some, append_nil, lineStart, lastBreak,
    indentsAfter]
  split
  · rfl
  · split
    · rw [← map_append, takeWhile_append_dropWhile, nil_append]
    · rw [dropWhile_eq_self (by omega)]

end

/-! ## Lines out of place -/

/-- The widths that the lines of a template may have, by the widths that are open: a line opens its
width, or closes what is wider down to its own width, which must be open. -/
def isIndented : List Nat → List Nat → Bool
  | _, [] => true
  | indents, w :: ws =>
    (indentsAfter indents w).headD 0 == w && isIndented (indentsAfter indents w) ws

/-- The widths that are open behind lines, the innermost one first. The width of lines that are not
indented is always open. -/
def openWidths (indents ws : List Nat) : List Nat := ws.foldl indentsAfter indents ++ [0]

/-- A line is narrower than the innermost open width, and its own width is not open. -/
def Offends (indents ws : List Nat) (i : Nat) : Prop :=
  ∃ w ∈ ws[i]?, w < (openWidths indents (ws.take i)).headD 0 ∧ w ∉ openWidths indents (ws.take i)

instance (indents ws : List Nat) (i : Nat) : Decidable (Offends indents ws i) :=
  inferInstanceAs (Decidable (∃ w ∈ ws[i]?, _))

/-- The diagnostic is about the first of some lines that is out of place, whose width is between two
open ones next to each other. The first line has a number. -/
def Diagnostic.Accuses (d : Diagnostic) (indents ws : List Nat) (n : Nat) : Prop :=
  ∃ i, IsLeast {i | Offends indents ws i} i ∧ d.position.line = n + i ∧
    ∃ w ∈ ws[i]?, ∃ inner outer, d.cause = .inconsistentIndentation outer inner ∧
      outer < w ∧ w < inner ∧ [inner, outer] <:+: openWidths indents (ws.take i)

section

variable {indents ws : List Nat} {w : Nat}

theorem pairwise_indentsAfter (h : indents.Pairwise (· > ·)) (w : Nat) :
    (indentsAfter indents w).Pairwise (· > ·) := by
  unfold indentsAfter
  split
  · exact pairwise_cons_of_wider h ‹_›
  · exact h.sublist (dropWhile_sublist _)

theorem headD_dropWhile_eq_iff (h : indents.Pairwise (· > ·)) :
    (indents.dropWhile (w < ·)).headD 0 = w ↔ w ∈ indents ++ [0] := by
  induction indents with
  | nil => simp [eq_comm]
  | cons current outer ih =>
    obtain ⟨hc, ho⟩ := pairwise_cons.mp h
    by_cases hw : w < current
    · rw [dropWhile_cons_of_pos (by simpa using hw), ih ho, cons_append,
        mem_cons, or_iff_right (Nat.ne_of_lt hw)]
    · rw [dropWhile_cons_of_neg (by simpa using hw), headD_cons]
      constructor
      · rintro rfl
        exact mem_cons_self ..
      · intro hm
        rcases mem_cons.mp hm with rfl | hm
        · rfl
        · rcases mem_append.mp hm with hm | hm
          · exact absurd (hc w hm) hw
          · obtain rfl := mem_singleton.mp hm
            omega

theorem headD_append_zero (indents : List Nat) : (indents ++ [0]).headD 0 = indents.headD 0 := by
  cases indents <;> rfl

theorem offends_zero_iff (h : indents.Pairwise (· > ·)) :
    Offends indents (w :: ws) 0 ↔ (indentsAfter indents w).headD 0 ≠ w := by
  have ho : Offends indents (w :: ws) 0 ↔ w < indents.headD 0 ∧ w ∉ indents ++ [0] := by
    rw [← headD_append_zero]
    constructor
    · rintro ⟨v, hv, ho⟩
      exact Option.some.inj hv ▸ ho
    · exact fun ho => ⟨w, rfl, ho⟩
  rw [ho]
  rcases Nat.lt_or_ge (indents.headD 0) w with hw | hn
  · rw [indentsAfter_open hw]
    exact ⟨fun hl => absurd hl.1 (Nat.lt_asymm hw), fun hne => absurd rfl hne⟩
  · rw [indentsAfter, if_neg (Nat.not_lt.mpr hn), Ne, headD_dropWhile_eq_iff h]
    refine ⟨And.right, fun hm => ⟨Nat.lt_of_le_of_ne hn ?_, hm⟩⟩
    rintro rfl
    -- The innermost width is open.
    cases indents with
    | nil => exact hm (mem_singleton_self 0)
    | cons inner outer => exact hm (mem_cons_self ..)

theorem not_offends_of_isIndented (h : indents.Pairwise (· > ·)) (hws : isIndented indents ws)
    (i : Nat) : ¬Offends indents ws i := by
  induction ws generalizing indents i with
  | nil =>
    rintro ⟨w, hw, -⟩
    cases hw
  | cons w ws ih =>
    rw [isIndented, Bool.and_eq_true, beq_iff_eq] at hws
    cases i with
    | zero => exact fun ho => (offends_zero_iff h).mp ho hws.1
    | succ i => exact ih (pairwise_indentsAfter h w) hws.2 i

theorem Diagnostic.Accuses.cons {d : Diagnostic} {n : Nat} (h : indents.Pairwise (· > ·))
    (hw : (indentsAfter indents w).headD 0 = w)
    (ha : d.Accuses (indentsAfter indents w) ws (n + 1)) : d.Accuses indents (w :: ws) n := by
  obtain ⟨i, hl, hli, hc⟩ := ha
  refine ⟨i + 1, ⟨hl.1, fun j hj => ?_⟩, by omega, hc⟩
  cases j with
  | zero => exact absurd hw ((offends_zero_iff h).mp hj)
  | succ j => exact Nat.succ_le_succ (hl.2 hj)

end

/-! ## Where a lexer stands -/

def Lexer.past (s : Lexer) (cells : List Cell) : Lexer :=
  { s with
    column := s.column + (Cell.line cells).length
    tokens := (Cell.tokens s.position cells).reverse ++ s.tokens }

namespace Lexer

section

variable {s : Lexer}

theorem past_append (cells more : List Cell) : s.past (cells ++ more) = (s.past cells).past more := by
  simp [past, Cell.line_append, Cell.tokens_append, position, Position.right, Nat.add_assoc]

theorem past_single (kind : TokenKind) :
    s.past [{ kind }] = (s.push kind).advanceColumn (Cell.spelling { kind }).length := by
  simp [past, Cell.tokens, push, pushAt, advanceColumn, Position.right, position]

theorem consume_past {cells : List Cell} {more : List Char} {n : Nat}
    (hr : s.rest = Cell.line cells ++ more) (hn : n = (Cell.line cells).length) :
    (s.past cells).consume n = { s with rest := more }.past cells := by
  have hd : s.rest.drop n = more := by
    rw [hr, hn, drop_left]
  show ({ s.past cells with rest := s.rest.drop n } : Lexer) = _
  rw [hd]
  rfl

theorem past_gap (gap : Nat) (kind : TokenKind) (cells : List Cell) :
    s.past ({ gap, kind } :: cells) = (s.advanceColumn gap).past ({ kind } :: cells) := by
  have hs : Cell.spelling { gap, kind } = Cell.spelling { kind } := rfl
  unfold past
  rw [Cell.tokens_gap]
  simp [advanceColumn, Position.right, position, hs, Nat.add_assoc]

end

/-- A place in a template, with the text from there on and the open indentations. -/
structure Spot where
  rest : List Char
  indents : List Nat
  position : Position

/-- A lexer that is underway stands at a spot and has added these tokens. -/
structure Stands (s : Lexer) (spot : Spot) (tokens : List Token) : Prop where
  rest_eq : s.rest = spot.rest
  indents_eq : s.indents = spot.indents
  position_eq : s.position = spot.position
  tokens_eq : s.tokens.reverse = tokens
  /-- Indentation is not made of tabs. -/
  style_ne : s.style ≠ some .tabs
  interpolating : s.interpolating = true
  running : s.ended = false

namespace Stands

variable {s : Lexer} {cs more : List Char} {indents : List Nat} {p : Position} {tokens : List Token}

theorem push (h : s.Stands ⟨cs, indents, p⟩ tokens) (kind : TokenKind) :
    (s.push kind).Stands ⟨cs, indents, p⟩ (tokens ++ [⟨kind, p⟩]) := by
  refine ⟨h.rest_eq, h.indents_eq, h.position_eq, ?_, h.style_ne, h.interpolating, h.running⟩
  show (⟨kind, s.position⟩ :: s.tokens).reverse = _
  rw [reverse_cons, h.tokens_eq, h.position_eq]

theorem consume (h : s.Stands ⟨cs, indents, p⟩ tokens) {n m : Nat} (hm : cs.drop n = more) :
    ((s.consume n).advanceColumn m).Stands ⟨more, indents, p.right m⟩ tokens where
  rest_eq := (congrArg (·.drop n) h.rest_eq).trans hm
  indents_eq := h.indents_eq
  position_eq := congrArg (Position.right · m) h.position_eq
  tokens_eq := h.tokens_eq
  style_ne := h.style_ne
  interpolating := h.interpolating
  running := h.running

theorem past (h : s.Stands ⟨cs, indents, p⟩ tokens) (cells : List Cell) :
    ({ s with rest := more }.past cells).Stands
      ⟨more, indents, p.right (Cell.line cells).length⟩ (tokens ++ Cell.tokens p cells) := by
  obtain rfl : s.position = p := h.position_eq
  refine ⟨rfl, h.indents_eq, rfl, ?_, h.style_ne, h.interpolating, h.running⟩
  show ((Cell.tokens s.position cells).reverse ++ s.tokens).reverse = _
  rw [reverse_append, reverse_reverse, h.tokens_eq]

end Stands
end Lexer

/-! ## Stretches of a run -/

/-- Tokens of these kinds, or a line that is out of place if there are none. -/
def ComesTo (kinds? : Option (List TokenKind)) : Except Diagnostic (List Token) → Prop
  | .ok new => kinds? = some (new.map Token.kind)
  | .error d => kinds? = none ∧ ∃ outer inner, d.cause = .inconsistentIndentation outer inner

namespace Setting

open Lexer (Spot)

variable {env : Setting} {s : Lexer} {a b c : Spot} {cs cs' : List Char}
  {indents indents' : List Nat} {p : Position} {tokens new new' : List Token}
  {kinds kinds' : List TokenKind} {out : Except Diagnostic (List Token)} {n w : Nat}
  {source : String}

/-- The lexer gets from one spot to another and adds these tokens. The steps that it is given are
enough for either spot. -/
def Places (env : Setting) (a : Spot) (new : List Token) (b : Spot) : Prop :=
  ∀ s tokens n, Lexer.Stands s a tokens → a.rest.length < n →
    ∃ t m, t.Stands b (tokens ++ new) ∧ b.rest.length < m ∧ env.runSteps n s = env.runSteps m t

/-- From a spot on, the lexer adds these tokens and is done, or it fails. -/
def Concludes (env : Setting) (a : Spot) (out : Except Diagnostic (List Token)) : Prop :=
  ∀ s tokens n, Lexer.Stands s a tokens → a.rest.length < n →
    (env.runSteps n s).map (·.tokens.reverse) = out.map (tokens ++ ·)

/-- The lexer gets from one text to another and adds tokens of these kinds. -/
def Lexes (env : Setting) (cs : List Char) (indents : List Nat) (kinds : List TokenKind)
    (cs' : List Char) (indents' : List Nat) : Prop :=
  ∀ s p tokens n, Lexer.Stands s ⟨cs, indents, p⟩ tokens → cs.length < n →
    ∃ t q new m, t.Stands ⟨cs', indents', q⟩ (tokens ++ new) ∧ new.map Token.kind = kinds ∧
      cs'.length < m ∧ env.runSteps n s = env.runSteps m t

/-- The lexer gets from a text to its end and adds tokens of these kinds, or it fails at a line that
is out of place if there are none. -/
def Comes (env : Setting) (cs : List Char) (indents : List Nat) (kinds? : Option (List TokenKind)) :
    Prop :=
  ∀ s p tokens n, Lexer.Stands s ⟨cs, indents, p⟩ tokens → cs.length < n →
    ∃ out, ComesTo kinds? out ∧ (env.runSteps n s).map (·.tokens.reverse) = out.map (tokens ++ ·)

theorem runSteps_succ (hh : env.hooks = []) (hs : s.ended = false) (n : Nat) :
    env.runSteps (n + 1) s = env.advance s >>= fun out => env.runSteps n out.2 := by
  rw [runSteps, hs, call_eq hh]
  rfl

theorem runSteps_ended (hs : s.ended) (n : Nat) : env.runSteps n s = .ok s := by
  cases n <;> rw [runSteps, if_pos hs]

theorem Places.refl : env.Places a [] a := by
  intro s tokens n hs hn
  exact ⟨s, n, by simpa using hs, hn, rfl⟩

theorem Places.trans (h : env.Places a new b) (h' : env.Places b new' c) :
    env.Places a (new ++ new') c := by
  intro s tokens n hs hn
  obtain ⟨t, m, ht, hm, hr⟩ := h s tokens n hs hn
  obtain ⟨u, k, hu, hk, hr'⟩ := h' t _ m ht hm
  exact ⟨u, k, by simpa using hu, hk, hr.trans hr'⟩

theorem Places.ends (h : env.Places a new b) (h' : env.Concludes b out) :
    env.Concludes a (out.map (new ++ ·)) := by
  intro s tokens n hs hn
  obtain ⟨t, m, ht, hm, hr⟩ := h s tokens n hs hn
  rw [hr, h' t _ m ht hm]
  cases out with
  | error d => rfl
  | ok rest => exact congrArg Except.ok (append_assoc ..)

theorem Places.step (hh : env.hooks = []) (hl : b.rest.length < a.rest.length)
    (h : ∀ s tokens, Lexer.Stands s a tokens →
      ∃ t, env.advance s = .ok (true, t) ∧ t.Stands b (tokens ++ new)) : env.Places a new b := by
  intro s tokens n hs hn
  obtain ⟨t, ha, ht⟩ := h s tokens hs
  cases n with
  | zero => exact absurd hn (Nat.not_lt_zero _)
  | succ n =>
    refine ⟨t, n, ht, by omega, ?_⟩
    rw [runSteps_succ hh hs.running, ha]
    rfl

theorem Concludes.step (hh : env.hooks = []) {out : Except Diagnostic (List Token)}
    (h : ∀ s tokens, Lexer.Stands s a tokens → ∀ n,
      (env.advance s >>= fun out => env.runSteps n out.2).map (·.tokens.reverse) =
        out.map (tokens ++ ·)) : env.Concludes a out := by
  intro s tokens n hs hn
  cases n with
  | zero => exact absurd hn (Nat.not_lt_zero _)
  | succ n =>
    rw [runSteps_succ hh hs.running]
    exact h s tokens hs n

theorem Places.lexes {q : Position} (h : env.Places ⟨cs, indents, p⟩ new ⟨cs', indents', q⟩)
    (hs : s.Stands ⟨cs, indents, p⟩ tokens) (hn : cs.length < n) :
    ∃ t q new' m, t.Stands ⟨cs', indents', q⟩ (tokens ++ new') ∧
      new'.map Token.kind = new.map Token.kind ∧ cs'.length < m ∧ env.runSteps n s = env.runSteps m t := by
  obtain ⟨t, m, ht, hm, hr⟩ := h s tokens n hs hn
  exact ⟨t, q, new, m, ht, rfl, hm, hr⟩

theorem Lexes.refl : env.Lexes cs indents [] cs indents := by
  intro s p tokens n hs hn
  exact Places.refl.lexes hs hn

theorem Lexes.step (hh : env.hooks = []) (hl : cs'.length < cs.length)
    (h : ∀ s p tokens, Lexer.Stands s ⟨cs, indents, p⟩ tokens → ∃ t q new,
      env.advance s = .ok (true, t) ∧ t.Stands ⟨cs', indents', q⟩ (tokens ++ new) ∧
        new.map Token.kind = kinds) : env.Lexes cs indents kinds cs' indents' := by
  intro s p tokens n hs hn
  obtain ⟨t, q, new, ha, ht, hk⟩ := h s p tokens hs
  obtain ⟨n, rfl⟩ : ∃ m, n = m + 1 := ⟨n - 1, by omega⟩
  refine ⟨t, q, new, n, ht, hk, by omega, ?_⟩
  rw [runSteps_succ hh hs.running, ha]
  rfl

theorem Lexes.trans {cs'' : List Char} {indents'' : List Nat}
    (h : env.Lexes cs indents kinds cs' indents')
    (h' : env.Lexes cs' indents' kinds' cs'' indents'') :
    env.Lexes cs indents (kinds ++ kinds') cs'' indents'' := by
  intro s p tokens n hs hn
  obtain ⟨t, q, new, m, ht, rfl, hm, hr⟩ := h s p tokens n hs hn
  obtain ⟨u, q', new', k, hu, rfl, hk, hr'⟩ := h' t q _ m ht hm
  exact ⟨u, q', new ++ new', k, by simpa using hu, map_append, hk, hr.trans hr'⟩

theorem Lexes.comes {kinds? : Option (List TokenKind)} (h : env.Lexes cs indents kinds cs' indents')
    (h' : env.Comes cs' indents' kinds?) : env.Comes cs indents (kinds?.map (kinds ++ ·)) := by
  intro s p tokens n hs hn
  obtain ⟨t, q, new, m, ht, rfl, hm, hr⟩ := h s p tokens n hs hn
  obtain ⟨out, ho, hen⟩ := h' t q _ m ht hm
  refine ⟨out.map (new ++ ·), ?_, ?_⟩
  · cases out with
    | ok rest =>
      obtain rfl : kinds? = some (rest.map Token.kind) := ho
      exact congrArg some map_append.symm
    | error d =>
      obtain ⟨rfl, hc⟩ := ho
      exact ⟨rfl, hc⟩
  · rw [hr, hen]
    cases out with
    | error d => rfl
    | ok rest => exact congrArg Except.ok (append_assoc ..)

theorem reverse_foldl_outdent (indents : List Nat) (s : Lexer) :
    (indents.foldl (fun s _ => s.push .outdent) s).tokens.reverse =
        s.tokens.reverse ++ indents.map (fun _ => ⟨.outdent, s.position⟩) ∧
      (indents.foldl (fun s _ => s.push .outdent) s).position = s.position := by
  induction indents generalizing s with
  | nil => simp
  | cons w indents ih =>
    obtain ⟨ht, hp⟩ := ih (s.push .outdent)
    rw [foldl_cons, ht, hp]
    exact ⟨by simp [push, pushAt, position], rfl⟩

theorem ends_nil (hh : env.hooks = []) (hi : env.interpolated = false)
    (indents : List Nat) (p : Position) :
    env.Concludes ⟨[], indents, p⟩ (.ok (indents.map (fun _ => ⟨.outdent, p⟩) ++ [⟨.eos, p⟩])) := by
  refine .step hh fun s tokens hs n => ?_
  rw [advance_eos hh hi hs.rest_eq, hs.indents_eq]
  show (env.runSteps n _).map _ = _
  rw [runSteps_ended rfl n]
  obtain ⟨ht, hp⟩ := reverse_foldl_outdent indents s
  rw [hs.tokens_eq, hs.position_eq] at ht
  rw [hs.position_eq] at hp
  show Except.ok (reverse ((⟨.eos, _⟩ : Token) :: _)) = _
  rw [reverse_cons, ht, hp, append_assoc]
  rfl

theorem comes_nil (hh : env.hooks = []) (hi : env.interpolated = false)
    (indents : List Nat) : env.Comes [] indents ((offside? indents []).map (· ++ [.eos])) :=
  fun s p tokens n hs hn =>
    ⟨_, by simp [ComesTo, offside?], ends_nil hh hi indents p s tokens n hs hn⟩

theorem stands_start (cs : List Char) : Lexer.Stands { rest := cs } ⟨cs, [], ⟨1, 1⟩⟩ [] :=
  ⟨rfl, rfl, rfl, rfl, by simp, rfl, rfl⟩

theorem tokenize_of_run
    (hr : ((env.nesting maxInterpolationDepth).run { rest := normalize source }).map (·.tokens.reverse) = out.map ([] ++ ·)) :
    PugTemplate.tokenize env source = out := by
  have ho : out.map ([] ++ ·) = out := by cases out <;> rfl
  rw [ho] at hr
  rw [← hr, PugTemplate.tokenize]
  cases (env.nesting maxInterpolationDepth).run { rest := normalize source } <;> rfl

theorem Concludes.tokenize
    (h : (env.nesting maxInterpolationDepth).Concludes ⟨normalize source, [], ⟨1, 1⟩⟩ out) :
    PugTemplate.tokenize env source = out :=
  tokenize_of_run (h _ [] _ (stands_start _) (Nat.lt_succ_self _))

theorem Comes.tokenize {kinds? : Option (List TokenKind)}
    (h : (env.nesting maxInterpolationDepth).Comes (normalize source) [] kinds?) :
    ComesTo kinds? (PugTemplate.tokenize env source) := by
  obtain ⟨out, ho, hr⟩ := h _ _ [] _ (stands_start _) (Nat.lt_succ_self _)
  rwa [tokenize_of_run hr]

/-! ## Starts of lines -/

theorem indentation?_spaces (hr : s.rest = '\n' :: (List.replicate w ' ' ++ cs))
    (hcs : ∀ c ∈ cs.head?, isGap c = false) (hst : s.style ≠ some .tabs) :
    ∃ style, s.indentation? = (some w, { s with style }) ∧ style ≠ some .tabs := by
  have hg : ∀ c ∈ cs.head?, c ≠ ' ' ∧ c ≠ '\t' := by
    intro c hc
    simpa [isGap] using hcs c hc
  have hs : ((replicate w ' ' ++ cs).takeWhile (· == ' ')).length = w := by
    rw [takeWhile_append_eq (by simp) fun c hc => by simpa using (hg c hc).1]
    exact length_replicate
  have ht : ((replicate w ' ' ++ cs).takeWhile (· == '\t')).length = 0 := by
    cases w with
    | zero =>
      rw [takeWhile_append_eq rfl fun c hc => by simpa using (hg c hc).2]
      rfl
    | succ w => rfl
  obtain ⟨rest, line, column, indents, style, interpolating, tokens, ended⟩ := s
  subst hr
  generalize replicate w ' ' ++ cs = body at *
  -- Without a style, the first line that is indented settles it.
  cases style with
  | none =>
    by_cases hw : 0 < w
    · exact ⟨some .spaces, by simp [indentation?, ht, hs, hw], by simp⟩
    · obtain rfl : w = 0 := by omega
      exact ⟨none, by simp [indentation?, ht, hs], by simp⟩
  | some style =>
    cases style with
    | tabs => exact absurd rfl hst
    | spaces => exact ⟨some .spaces, by simp [indentation?, hs], by simp⟩

theorem closeIndents_eq (env : Setting) (cs : List Char) {column : Nat}
    (hw : (indents.dropWhile (w < ·)).headD 0 = w)
    (hco : column = indents.headD 0 + 1 ∨ w < indents.headD 0) :
    ∃ new : List Token, new.map Token.kind = ((indents.takeWhile (w < ·)).map fun _ => .outdent) ∧
      ∀ s tokens, Lexer.Stands s ⟨cs, indents, ⟨n, column⟩⟩ tokens →
        ∃ t, env.closeIndents w indents s = .ok t ∧
          t.Stands ⟨cs, indents.dropWhile (w < ·), ⟨n, w + 1⟩⟩ (tokens ++ new) := by
  induction indents generalizing column with
  | nil =>
    obtain rfl : 0 = w := hw
    obtain rfl := hco.resolve_right (Nat.not_lt_zero _)
    exact ⟨[], rfl, fun s tokens hs => ⟨s, rfl, by simpa using hs⟩⟩
  | cons current outer ih =>
    unfold closeIndents
    by_cases hc : w < current
    · rw [dropWhile_cons_of_pos (by simpa using hc)] at hw ⊢
      rw [takeWhile_cons_of_pos (by simpa using hc)]
      have hn : ¬outer.headD 0 < w := by
        intro hlt
        -- The next width would be the one that stays, and it is not that of the line.
        rw [dropWhile_eq_self (Nat.le_of_lt hlt)] at hw
        omega
      obtain ⟨new, hk, hclo⟩ := ih hw (.inl rfl)
      refine ⟨⟨.outdent, ⟨n, outer.headD 0 + 1⟩⟩ :: new, by simp [hk], fun s tokens hs => ?_⟩
      rw [if_neg (by omega), if_neg hn]
      let closed : Lexer := { s with column := outer.headD 0 + 1, indents := outer }
      have hl : s.line = n := congrArg Position.line hs.position_eq
      have hcl : closed.Stands ⟨cs, outer, ⟨n, outer.headD 0 + 1⟩⟩ tokens :=
        ⟨hs.rest_eq, rfl, by rw [← hl]; rfl, hs.tokens_eq, hs.style_ne, hs.interpolating, hs.running⟩
      obtain ⟨t, ht, hst⟩ := hclo _ _ (hcl.push .outdent)
      exact ⟨t, ht, by simpa using hst⟩
    · rw [dropWhile_cons_of_neg (by simpa using hc)] at hw ⊢
      rw [takeWhile_cons_of_neg (by simpa using hc)]
      obtain rfl : current = w := hw
      obtain rfl := hco.resolve_right hc
      exact ⟨[], rfl, fun s tokens hs => ⟨s, if_pos (Nat.le_refl _), by simpa using hs⟩⟩

theorem closeIndents_error (env : Setting) (cs : List Char) {indents : List Nat} {w n column : Nat}
    (hw : (indents.dropWhile (w < ·)).headD 0 ≠ w) (hlt : w < indents.headD 0) :
    ∃ inner outer column', outer < w ∧ w < inner ∧ [inner, outer] <:+: indents ++ [0] ∧
      ∀ s tokens, Lexer.Stands s ⟨cs, indents, ⟨n, column⟩⟩ tokens → env.closeIndents w indents s =
          .error (env.diagnosticAt (.inconsistentIndentation outer inner) ⟨n, column'⟩) := by
  induction indents generalizing column with
  | nil => exact absurd hlt (Nat.not_lt_zero _)
  | cons current outer ih =>
    have hc : w < current := hlt
    rw [dropWhile_cons_of_pos (by simpa using hc)] at hw
    unfold closeIndents
    rcases Nat.lt_trichotomy (outer.headD 0) w with hn | heq | hn
    · refine ⟨current, outer.headD 0, column, hn, hc, ?_, fun s tokens hs => ?_⟩
      · cases outer with
        | nil => exact ⟨[], [], rfl⟩
        | cons next outer => exact ⟨[], outer ++ [0], rfl⟩
      · rw [if_neg (by omega), if_pos hn]
        exact congrArg (fun at_ => Except.error (env.diagnosticAt _ at_)) hs.position_eq
    · rw [dropWhile_eq_self (Nat.le_of_eq heq)] at hw
      exact absurd heq hw
    · obtain ⟨inner, next, column', ho, hi, hin, hclo⟩ :=
        @ih (outer.headD 0 + 1) hw hn
      refine ⟨inner, next, column', ho, hi, hin.trans (suffix_cons ..).isInfix,
        fun s tokens hs => ?_⟩
      rw [if_neg (by omega), if_neg (by omega)]
      have hl : s.line = n := congrArg Position.line hs.position_eq
      have hcl : ({ s with column := outer.headD 0 + 1, indents := outer } : Lexer).Stands
          ⟨cs, outer, ⟨n, outer.headD 0 + 1⟩⟩ tokens :=
        ⟨hs.rest_eq, rfl, by rw [← hl]; rfl, hs.tokens_eq, hs.style_ne, hs.interpolating, hs.running⟩
      exact hclo _ _ (hcl.push .outdent)

theorem dropWhile_spaces (w : Nat) (hcs : ∀ c ∈ cs.head?, isGap c = false) :
    (List.replicate w ' ' ++ cs).dropWhile isGap = cs := by
  have hs : ∀ c ∈ replicate w ' ', isGap c := by
    intro c hc
    rw [eq_of_mem_replicate hc]
    rfl
  rw [dropWhile_append_of_pos hs]
  cases cs with
  | nil => rfl
  | cons c cs => exact dropWhile_cons_of_neg (by simp [hcs c rfl])

/-- The start of a line of spaces and something else, by its width and the innermost one. -/
theorem advance_lineStart (hh : env.hooks = []) (hcs : ∀ c ∈ cs.head?, isGap c = false ∧ c ≠ '\n')
    (hs : s.Stands ⟨'\n' :: (List.replicate w ' ' ++ cs), indents, p⟩ tokens) :
    ∃ line : Lexer, line.Stands ⟨cs, indents, ⟨p.line + 1, 1⟩⟩ tokens ∧ env.advance s =
        (if w < indents.headD 0 then env.closeIndents w indents line
          else if indents.headD 0 < w then
            .ok { line.push (.indent w) with column := w + 1, indents := w :: indents }
          else .ok { line.push .newline with column := indents.headD 0 + 1 }).map
            fun t => (true, { t with interpolating := true }) := by
  obtain ⟨style, hi, hst⟩ :=
    indentation?_spaces hs.rest_eq (fun c hc => (hcs c hc).1) hs.style_ne
  have hl : (({ s with style }.advanceLine 1).consume (w + 1)).Stands
      ⟨cs, indents, ⟨p.line + 1, 1⟩⟩ tokens := by
    refine ⟨?_, hs.indents_eq, ?_, hs.tokens_eq, hst, hs.interpolating, hs.running⟩
    · show s.rest.drop (w + 1) = cs
      rw [hs.rest_eq, drop_succ_cons, drop_left' length_replicate]
    · show (⟨s.position.line + 1, 1⟩ : Position) = _
      rw [hs.position_eq]
  refine ⟨_, hl, ?_⟩
  have hn : ∀ rest, (replicate w ' ' ++ cs).dropWhile isGap ≠ '\n' :: rest := by
    intro rest hr
    rw [dropWhile_spaces w fun c hc => (hcs c hc).1] at hr
    exact (hcs '\n' (by rw [hr]; rfl)).2 rfl
  refine advance_indent hh hs.rest_eq hn ?_ ?_
  · unfold indent
    rw [hi]
    dsimp only
    generalize ({ s with style }.advanceLine 1).consume (w + 1) = line at hl ⊢
    have hg : ∀ c tail, line.rest = c :: tail → isGap c = false ∧ c ≠ '\n' := by
      intro c tail hr
      exact hcs c (by rw [← show line.rest = cs from hl.rest_eq, hr]; rfl)
    have hin : line.indents = indents := hl.indents_eq
    split
    · exact absurd (hg _ _ ‹_›).1 (by decide)
    · exact absurd (hg _ _ ‹_›).1 (by decide)
    · exact absurd rfl (hg _ _ ‹_›).2
    · rw [show line.indent = indents.headD 0 from congrArg (·.headD 0) hin, hin]
      split
      · rfl
      · split <;> rfl
  · intro t ht
    cases ho : (if w < indents.headD 0 then env.closeIndents w indents _ else _) with
    | error d | ok u => rw [ho] at ht; cases ht

theorem places_lineStart (hh : env.hooks = []) (hcs : ∀ c ∈ cs.head?, isGap c = false ∧ c ≠ '\n')
    (hw : (indentsAfter indents w).headD 0 = w) (p : Position) :
    ∃ new : List Token, new.map Token.kind = lineStart indents w ∧
      env.Places ⟨'\n' :: (List.replicate w ' ' ++ cs), indents, p⟩ new
        ⟨cs, indentsAfter indents w, ⟨p.line + 1, w + 1⟩⟩ := by
  have hsh : cs.length < ('\n' :: (replicate w ' ' ++ cs)).length := by
    rw [length_cons, length_append]
    omega
  rcases Nat.lt_trichotomy w (indents.headD 0) with hlt | heq | hg
  · have haf : indentsAfter indents w = indents.dropWhile (w < ·) := if_neg (Nat.lt_asymm hlt)
    have hsta : lineStart indents w = (indents.takeWhile (w < ·)).map fun _ => .outdent := by
      rw [lineStart, if_neg (Nat.lt_asymm hlt), if_pos hlt]
    rw [haf] at hw
    obtain ⟨new, hk, hc⟩ := closeIndents_eq env cs hw (.inr hlt)
    refine ⟨new, by rw [hk, hsta], .step hh hsh fun s tokens hs => ?_⟩
    obtain ⟨line, hl, ha⟩ := advance_lineStart hh hcs hs
    obtain ⟨t, ht, hst⟩ := hc line tokens hl
    rw [if_pos hlt, ht] at ha
    rw [haf]
    exact ⟨_, ha, hst.rest_eq, hst.indents_eq, hst.position_eq, hst.tokens_eq,
      hst.style_ne, rfl, hst.running⟩
  · refine ⟨[⟨.newline, ⟨p.line + 1, 1⟩⟩], (lineStart_same heq.symm).symm,
      .step hh hsh fun s tokens hs => ?_⟩
    obtain ⟨line, hl, ha⟩ := advance_lineStart hh hcs hs
    rw [if_neg (by omega), if_neg (by omega)] at ha
    have hp := hl.push .newline
    have hpl : line.line = p.line + 1 := congrArg Position.line hl.position_eq
    rw [indentsAfter_same heq.symm]
    refine ⟨_, ha, hp.rest_eq, hp.indents_eq, ?_, hp.tokens_eq, hp.style_ne, rfl, hp.running⟩
    show (⟨line.line, indents.headD 0 + 1⟩ : Position) = _
    rw [hpl, heq]
  · refine ⟨[⟨.indent w, ⟨p.line + 1, 1⟩⟩], (lineStart_open hg).symm,
      .step hh hsh fun s tokens hs => ?_⟩
    obtain ⟨line, hl, ha⟩ := advance_lineStart hh hcs hs
    rw [if_neg (by omega), if_pos hg] at ha
    have hp := hl.push (.indent w)
    have hpl : line.line = p.line + 1 := congrArg Position.line hl.position_eq
    rw [indentsAfter_open hg]
    refine ⟨_, ha, hp.rest_eq, rfl, ?_, hp.tokens_eq, hp.style_ne, rfl, hp.running⟩
    show (⟨line.line, w + 1⟩ : Position) = _
    rw [hpl]

theorem ends_lineStart (hh : env.hooks = []) (hcs : ∀ c ∈ cs.head?, isGap c = false ∧ c ≠ '\n')
    (hi : indents.Pairwise (· > ·)) (hw : (indentsAfter indents w).headD 0 ≠ w)
    (p : Position) (ws : List Nat) : ∃ d : Diagnostic, d.Accuses indents (w :: ws) (p.line + 1) ∧
      env.Concludes ⟨'\n' :: (List.replicate w ' ' ++ cs), indents, p⟩ (.error d) := by
  have ho : Offends indents (w :: ws) 0 := (offends_zero_iff hi).mpr hw
  have hl : w < indents.headD 0 := by
    obtain ⟨v, hv, hl, -⟩ := ho
    obtain rfl : w = v := Option.some.inj hv
    exact headD_append_zero indents ▸ hl
  rw [indentsAfter, if_neg (Nat.lt_asymm hl)] at hw
  obtain ⟨inner, outer, column, hou, hin, hinf, hc⟩ :=
    @closeIndents_error env cs indents w (p.line + 1) 1 hw hl
  let d := env.diagnosticAt (.inconsistentIndentation outer inner) ⟨p.line + 1, column⟩
  refine ⟨d, ⟨0, ⟨ho, fun j _ => Nat.zero_le j⟩, rfl, w, rfl, inner, outer, rfl, hou, hin,
    hinf⟩, .step hh fun s tokens hs n => ?_⟩
  obtain ⟨line, hli, ha⟩ := advance_lineStart hh hcs hs
  rw [ha, if_pos hl, hc line tokens hli]
  rfl

theorem lexes_lineStart (hh : env.hooks = []) (hc : ∀ c ∈ cs.head?, isGap c = false ∧ c ≠ '\n')
    (hw : (indentsAfter indents w).headD 0 = w) :
    env.Lexes ('\n' :: (List.replicate w ' ' ++ cs)) indents (lineStart indents w) cs
      (indentsAfter indents w) := by
  intro s p tokens n hs hn
  obtain ⟨new, hk, hp⟩ := places_lineStart hh hc hw p
  rw [← hk]
  exact hp.lexes hs hn

theorem comes_line (hh : env.hooks = []) (hi : indents.Pairwise (· > ·))
    {more : List Char} {content : List TokenKind} {lines : List (Nat × List TokenKind)}
    (hcs : ∀ c ∈ cs.head?, isGap c = false ∧ c ≠ '\n')
    (hc : env.Lexes cs (indentsAfter indents w) content more (indentsAfter indents w))
    (hm : env.Comes more (indentsAfter indents w) ((offside? (indentsAfter indents w) lines).map (· ++ [.eos]))) :
    env.Comes ('\n' :: (List.replicate w ' ' ++ cs)) indents
      ((offside? indents ((w, content) :: lines)).map (· ++ [.eos])) := by
  rw [offside?]
  split
  · next hw =>
    have hl := ((lexes_lineStart hh hcs hw).trans hc).comes hm
    simpa [Function.comp_def] using hl
  · next hw =>
    intro s p tokens n hs hn
    obtain ⟨d, ⟨_, -, -, _, -, inner, outer, hca, -⟩, hen⟩ :=
      ends_lineStart hh hcs hi hw p []
    exact ⟨.error d, ⟨rfl, outer, inner, hca⟩, hen s tokens n hs hn⟩

theorem lexes_blank (hh : env.hooks = []) {gap : List Char} (hg : gap.all isGap) :
    env.Lexes ('\n' :: (gap ++ '\n' :: cs)) indents [] ('\n' :: cs) indents := by
  have hsh : ('\n' :: cs).length < ('\n' :: (gap ++ '\n' :: cs)).length := by
    simp only [length_cons, length_append]
    omega
  refine .step hh hsh fun s p tokens hs => ?_
  refine ⟨_, ⟨s.line + 1, 1⟩, [], advance_blank hh hg hs.rest_eq,
    ⟨rfl, hs.indents_eq, rfl, ?_, hs.style_ne, hs.interpolating, hs.running⟩, rfl⟩
  rw [append_nil]
  exact hs.tokens_eq

end Setting
end PugTemplate
