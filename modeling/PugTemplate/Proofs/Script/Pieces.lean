import PugTemplate.Proofs.Script.Levels
import PugTemplate.Script.Lexical
import PugTemplate.Script.Nesting.Range
/-!
# Pieces of a script

The text of a script in pieces: comments, strings and regular expressions are one piece each, and so
is every other character. Which slashes start a regular expression is known to the grammar only, so
the places of those are given. What is open between pieces are brackets and templates.
-/

namespace PugTemplate

open List Option
namespace Script

open Nesting (Context)

/-! ## Pieces -/

inductive Piece where
  /-- A character of code. -/
  | mark (c : Char)
  /-- A comment up to the end of its line; `stop` is the character that ends the line. -/
  | lineComment (body : List Char) (stop : Option Char)
  | blockComment (body : List Char)
  | string (quote : Char) (body : List Char)
  /-- A regular expression without its flags. -/
  | regex (body : List Char)
  /-- A character of a template's text, or the backtick that ends it. -/
  | letter (c : Char)
  /-- A backslash and the character after it, in a template's text. -/
  | escape (c : Char)
  /-- The start of a substitution. -/
  | substitution
  deriving DecidableEq, Repr

namespace Piece

def chars : Piece → List Char
  | .mark c => [c]
  | .lineComment body stop => '/' :: '/' :: body ++ stop.toList
  | .blockComment body => '/' :: '*' :: body ++ ['*', '/']
  | .string quote body => quote :: body ++ [quote]
  | .regex body => '/' :: body ++ ['/']
  | .letter c => [c]
  | .escape c => ['\\', c]
  | .substitution => ['$', '{']

def isRegex : Piece → Bool
  | .regex _ => true
  | _ => false

def isComment : Piece → Bool
  | .lineComment _ _ => true
  | .blockComment _ => true
  | _ => false

def text (ps : List Piece) : List Char := ps.flatMap chars

@[simp] theorem text_nil : text [] = [] := rfl

@[simp] theorem text_cons (p : Piece) (ps : List Piece) : text (p :: ps) = p.chars ++ text ps := rfl

@[simp] theorem text_append (ps qs : List Piece) : text (ps ++ qs) = text ps ++ text qs :=
  flatMap_append

end Piece

/-! ## The first piece -/

/-- Reads the inside of a string, up to the first quote that no backslash stands before. -/
def readQuoted (quote : Char) : List Char → Option (List Char × List Char)
  | [] => none
  | '\\' :: c :: cs => (readQuoted quote cs).map fun (body, rest) => ('\\' :: c :: body, rest)
  | c :: cs =>
    if c == quote then some ([], cs)
    else (readQuoted quote cs).map fun (body, rest) => (c :: body, rest)

/-- Reads the inside of a regular expression, up to the first slash that neither a backslash stands
before nor brackets around. -/
def readPattern : Bool → List Char → Option (List Char × List Char)
  | _, [] => none
  | inClass, '\\' :: c :: cs =>
    (readPattern inClass cs).map fun (body, rest) => ('\\' :: c :: body, rest)
  | inClass, c :: cs =>
    if c == '/' && !inClass then some ([], cs)
    else
      let inside := if c == '[' then true else if c == ']' then false else inClass
      (readPattern inside cs).map fun (body, rest) => (c :: body, rest)

/-- Reads the text of a block comment and its end. -/
def readBlockComment : List Char → Option (List Char × List Char)
  | '*' :: '/' :: cs => some ([], cs)
  | c :: cs => (readBlockComment cs).map fun (body, rest) => (c :: body, rest)
  | [] => none

/-- The levels after a character of code that is no part of a longer piece. -/
def levelsAfter (levels : List Context) (c : Char) : Option (List Context) :=
  if c == '(' then some (.bracket ')' :: levels)
  else if c == '[' then some (.bracket ']' :: levels)
  else if c == '{' then some (.bracket '}' :: levels)
  else if c == '\x60' then some (.templateQuote :: levels)
  else if Nesting.State.isCloser c then
    if levels.head? == some (.bracket c) then some levels.tail else none
  else some levels

def lineCommentPiece (cs : List Char) : Piece × List Char :=
  let body := cs.takeWhile fun c => !isLineBreak c
  let rest := cs.dropWhile fun c => !isLineBreak c
  (.lineComment body rest.head?, rest.tail)

/-- The piece of a slash that starts no regular expression, with the levels and the text after it. -/
def slashPiece? (levels : List Context) : List Char → Option (Piece × List Context × List Char)
  | '/' :: cs => some ((lineCommentPiece cs).1, levels, (lineCommentPiece cs).2)
  | '*' :: cs => (readBlockComment cs).map fun (body, rest) => (.blockComment body, levels, rest)
  | cs => some (.mark '/', levels, cs)

/-- The first piece of code, with the levels and the text after it. The flag tells that a slash starts
a regular expression. -/
def codePiece? (regex : Bool) (levels : List Context) :
    List Char → Option (Piece × List Context × List Char)
  | [] => none
  | '/' :: cs =>
    if regex then (readPattern false cs).map fun (body, rest) => (.regex body, levels, rest)
    else slashPiece? levels cs
  | c :: cs =>
    if c == '"' || c == '\'' then
      (readQuoted c cs).map fun (body, rest) => (.string c body, levels, rest)
    else (levelsAfter levels c).map fun after => (.mark c, after, cs)

/-- The first piece of a template, with the levels and the text after it. -/
def templatePiece? (levels : List Context) : List Char → Option (Piece × List Context × List Char)
  | '$' :: '{' :: cs => some (.substitution, .bracket '}' :: levels, cs)
  | '\\' :: c :: cs => some (.escape c, levels, cs)
  | c :: cs => some (.letter c, if c == '\x60' then levels.tail else levels, cs)
  | [] => none

def isCode (levels : List Context) : Bool := levels.head? != some .templateQuote

/-- The first piece of a text inside of levels, with the levels and the text after it. -/
def piece? (regex : Bool) (levels : List Context) (cs : List Char) :
    Option (Piece × List Context × List Char) :=
  if isCode levels then codePiece? regex levels cs else templatePiece? levels cs

variable {levels after : List Context} {body rest cs : List Char} {regex : Bool} {p : Piece}

theorem piece?_code (h : isCode levels) (regex : Bool) (cs : List Char) :
    piece? regex levels cs = codePiece? regex levels cs := if_pos h

theorem piece?_template (regex : Bool) (levels : List Context) (cs : List Char) :
    piece? regex (.templateQuote :: levels) cs = templatePiece? (.templateQuote :: levels) cs := rfl

theorem readBlockComment_cut (h : readBlockComment cs = some (body, rest)) :
    cs = body ++ '*' :: '/' :: rest := by
  fun_induction readBlockComment cs generalizing body with
  | case1 cs => cases h; rfl
  | case2 c cs hn ih =>
    obtain ⟨⟨found, after⟩, hf, heq⟩ := map_eq_some_iff.mp h
    cases heq
    rw [ih hf]
    rfl
  | case3 => cases h

theorem readQuoted_cut {quote : Char} (h : readQuoted quote cs = some (body, rest)) :
    cs = body ++ quote :: rest := by
  fun_induction readQuoted quote cs generalizing body with
  | case1 => cases h
  | case2 c cs ih | case4 c cs _ _ ih =>
    obtain ⟨⟨found, after⟩, hfound, heq⟩ := map_eq_some_iff.mp h
    cases heq
    rw [ih hfound]
    rfl
  | case3 c cs _ hquote =>
    cases h
    rw [beq_iff_eq.mp hquote]
    rfl

theorem readPattern_cut {inClass : Bool} (h : readPattern inClass cs = some (body, rest)) :
    cs = body ++ '/' :: rest := by
  fun_induction readPattern inClass cs generalizing body with
  | case1 => cases h
  | case3 inClass c cs _ hslash =>
    cases h
    simp only [Bool.and_eq_true, beq_iff_eq] at hslash
    rw [hslash.1]
    rfl
  | case2 | case4 =>
    rename_i ih
    obtain ⟨⟨found, after⟩, hfound, heq⟩ := map_eq_some_iff.mp h
    cases heq
    rw [ih hfound]
    rfl

theorem lineCommentPiece_cut (cs : List Char) :
    '/' :: '/' :: cs = (lineCommentPiece cs).1.chars ++ (lineCommentPiece cs).2 := by
  have hr : (cs.dropWhile fun c => !isLineBreak c).head?.toList ++
      (cs.dropWhile fun c => !isLineBreak c).tail = cs.dropWhile fun c => !isLineBreak c := by
    cases cs.dropWhile fun c => !isLineBreak c <;> rfl
  simp only [lineCommentPiece, Piece.chars, cons_append, append_assoc, hr,
    takeWhile_append_dropWhile]

/-- What `codePiece?` can find. -/
theorem codePiece?_cases (h : codePiece? regex levels cs = some (p, after, rest)) :
    (∃ body, regex = true ∧ cs = '/' :: (body ++ '/' :: rest) ∧
      readPattern false (body ++ '/' :: rest) = some (body, rest) ∧ p = .regex body ∧
      after = levels) ∨
    (∃ more, regex = false ∧ cs = '/' :: '/' :: more ∧ (p, rest) = lineCommentPiece more ∧
      after = levels) ∨
    (∃ body, regex = false ∧ cs = '/' :: '*' :: (body ++ '*' :: '/' :: rest) ∧
      readBlockComment (body ++ '*' :: '/' :: rest) = some (body, rest) ∧ p = .blockComment body ∧
      after = levels) ∨
    (∃ quote body, (quote == '"' || quote == '\'') = true ∧ cs = quote :: (body ++ quote :: rest) ∧
      readQuoted quote (body ++ quote :: rest) = some (body, rest) ∧ p = .string quote body ∧
      after = levels) ∨
    ∃ c, cs = c :: rest ∧ p = .mark c ∧ (c == '"' || c == '\'') = false ∧
      (c = '/' → regex = false ∧ rest.head? ≠ some '/' ∧ rest.head? ≠ some '*') ∧
      levelsAfter levels c = some after := by
  unfold codePiece? at h
  split at h
  · cases h
  · next cs =>
    split at h
    · next hregex =>
      obtain ⟨⟨body, found⟩, hfound, heq⟩ := map_eq_some_iff.mp h
      cases heq
      have hcut := readPattern_cut hfound
      exact .inl ⟨body, hregex, congrArg _ hcut, hcut ▸ hfound, rfl, rfl⟩
    · next hregex =>
      have hregex := eq_false_of_ne_true hregex
      unfold slashPiece? at h
      split at h
      · next more =>
        cases h
        exact .inr (.inl ⟨more, hregex, rfl, rfl, rfl⟩)
      · next more =>
        obtain ⟨⟨body, found⟩, hfound, heq⟩ := map_eq_some_iff.mp h
        cases heq
        have hcut := readBlockComment_cut hfound
        exact .inr (.inr (.inl ⟨body, hregex, by rw [hcut], hcut ▸ hfound, rfl, rfl⟩))
      · next hline hblock =>
        cases h
        refine .inr (.inr (.inr (.inr ⟨'/', rfl, rfl, rfl, fun _ => ⟨hregex, ?_, ?_⟩, rfl⟩)))
        · intro hhead
          exact hline _ (cons_head?_tail hhead).symm
        · intro hhead
          exact hblock _ (cons_head?_tail hhead).symm
  · next c cs hslash =>
    split at h
    · next hquote =>
      obtain ⟨⟨body, found⟩, hfound, heq⟩ := map_eq_some_iff.mp h
      cases heq
      have hcut := readQuoted_cut hfound
      exact .inr (.inr (.inr (.inl ⟨c, body, hquote, congrArg _ hcut, hcut ▸ hfound, rfl, rfl⟩)))
    · next hquote =>
      obtain ⟨found, hfound, heq⟩ := map_eq_some_iff.mp h
      cases heq
      exact .inr (.inr (.inr (.inr ⟨c, rfl, rfl, eq_false_of_ne_true hquote,
        fun heq => absurd heq hslash, hfound⟩)))

theorem piece?_cut (h : piece? regex levels cs = some (p, after, rest)) : cs = p.chars ++ rest := by
  unfold piece? at h
  split at h
  · rcases codePiece?_cases h with ⟨body, -, rfl, -, rfl, -⟩ | ⟨more, -, rfl, hmore, -⟩ |
      ⟨body, -, rfl, -, rfl, -⟩ | ⟨quote, body, -, rfl, -, rfl, -⟩ | ⟨c, rfl, rfl, -⟩
    · simp [Piece.chars]
    · rw [lineCommentPiece_cut, ← hmore]
    · simp [Piece.chars]
    · simp [Piece.chars]
    · rfl
  · unfold templatePiece? at h
    split at h <;> cases h <;> rfl

theorem piece?_isRegex (h : piece? regex levels cs = some (p, after, rest)) :
    piece? p.isRegex levels cs = some (p, after, rest) := by
  unfold piece? at h ⊢
  split at h
  · next hcode =>
    rw [if_pos hcode]
    rcases codePiece?_cases h with ⟨body, rfl, -, -, rfl, -⟩ | ⟨more, rfl, -, hmore, -⟩ |
      ⟨body, rfl, -, -, rfl, -⟩ | ⟨quote, body, hquote, rfl, hread, rfl, rfl⟩ |
      ⟨c, rfl, rfl, hquote, hslash, hafter⟩
    · exact h
    · cases hmore
      exact h
    · exact h
    · rw [codePiece?, if_pos hquote, hread]
      · rfl
      · rintro rfl
        cases hquote
    · by_cases hc : c = '/'
      · rw [(hslash hc).1] at h
        exact h
      · rw [codePiece?, if_neg (by rw [hquote]; decide), hafter]
        · rfl
        · exact hc
  · next hcode =>
    rw [if_neg hcode]
    exact h

theorem Piece.chars_ne_nil (p : Piece) : p.chars ≠ [] := by
  cases p <;> simp [chars]

/-! ## Plain characters -/

/-- The characters that open or close something, and the slash. -/
def nestingCharacters : List Char := ['(', ')', '[', ']', '{', '}', '\'', '"', '\x60', '/']

/-- A character that opens and closes nothing. -/
def isPlainChar (c : Char) : Bool := !nestingCharacters.contains c

variable {c : Char}

theorem ne_of_isPlainChar {d : Char} (h : isPlainChar c) (hd : d ∈ nestingCharacters) : c ≠ d := by
  rintro rfl
  simp [isPlainChar, hd] at h

theorem levelsAfter_of_isPlainChar (h : isPlainChar c) (levels : List Context) :
    levelsAfter levels c = some levels := by
  have h1 : c ≠ '(' := ne_of_isPlainChar h (by decide)
  have h2 : c ≠ '[' := ne_of_isPlainChar h (by decide)
  have h3 : c ≠ '{' := ne_of_isPlainChar h (by decide)
  have h4 : c ≠ '\x60' := ne_of_isPlainChar h (by decide)
  have h5 : c ≠ ')' := ne_of_isPlainChar h (by decide)
  have h6 : c ≠ ']' := ne_of_isPlainChar h (by decide)
  have h7 : c ≠ '}' := ne_of_isPlainChar h (by decide)
  simp [levelsAfter, Nesting.State.isCloser, h1, h2, h3, h4, h5, h6, h7]

theorem codePiece?_of_isPlainChar (h : isPlainChar c) (regex : Bool)
    (levels : List Context) (cs : List Char) :
    codePiece? regex levels (c :: cs) = some (.mark c, levels, cs) := by
  have hslash : c ≠ '/' := ne_of_isPlainChar h (by decide)
  have hquote : (c == '"' || c == '\'') = false := by
    have h1 : c ≠ '"' := ne_of_isPlainChar h (by decide)
    have h2 : c ≠ '\'' := ne_of_isPlainChar h (by decide)
    simp [h1, h2]
  rw [codePiece?]
  · rw [hquote, levelsAfter_of_isPlainChar h]
    rfl
  · exact hslash

theorem isPlainChar_of {p : Char → Bool} (hp : (nestingCharacters.all fun d => !p d) = true)
    (hc : p c) : isPlainChar c := by
  rw [isPlainChar, Bool.not_eq_true', ← Bool.not_eq_true, contains_iff_mem]
  intro hmem
  have hn := List.all_eq_true.mp hp c hmem
  rw [hc] at hn
  exact Bool.false_ne_true hn

/-! ## Passages -/

/-- A text from one place to another in pieces, with the levels at both places. -/
inductive Passage : List Context → List Char → List Piece → List Context → List Char → Prop where
  | refl (levels : List Context) (cs : List Char) : Passage levels cs [] levels cs
  | step {levels between after : List Context} {cs mid rest : List Char} {p : Piece}
      {ps : List Piece} (hfirst : piece? p.isRegex levels cs = some (p, between, mid))
      (hrest : Passage between mid ps after rest) : Passage levels cs (p :: ps) after rest

namespace Passage

variable {levels between after : List Context} {cs mid rest : List Char} {ps qs : List Piece}

theorem cut (h : Passage levels cs ps after rest) : cs = Piece.text ps ++ rest := by
  induction h with
  | refl => rfl
  | step hf _ ih => rw [piece?_cut hf, ih, Piece.text_cons, append_assoc]

end Passage

/-! ## All pieces -/

/-- At most `n` pieces from the front of a text, with what is open and left after them. `isRegexAt`
tells at which bytes a regular expression starts, and `place` is the byte at which the text does.
There are fewer pieces only if what follows is none, such as a closing bracket that nothing has
opened. -/
def cutPieces (isRegexAt : Nat → Bool) :
    Nat → Nat → List Context → List Char → List Piece × List Context × List Char
  | 0, _, levels, cs => ([], levels, cs)
  | n + 1, place, levels, cs =>
    match piece? (isRegexAt place) levels cs with
    | some (p, after, rest) =>
      let (ps, last, left) := cutPieces isRegexAt n (place + Nesting.bytes p.chars) after rest
      (p :: ps, last, left)
    | none => ([], levels, cs)

/-- **What `cutPieces` cuts off is a passage** to where it stops. -/
theorem passage_cutPieces (isRegexAt : Nat → Bool) (n place : Nat) (levels : List Context)
    (cs : List Char) :
    Passage levels cs (cutPieces isRegexAt n place levels cs).1
      (cutPieces isRegexAt n place levels cs).2.1 (cutPieces isRegexAt n place levels cs).2.2 := by
  induction n generalizing place levels cs with
  | zero => exact .refl _ _
  | succ n ih =>
    rw [cutPieces]
    split
    · next p after rest hpiece => exact .step (piece?_isRegex hpiece) (ih _ after rest)
    · exact .refl _ _

end Script
end PugTemplate
