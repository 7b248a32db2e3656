import PugTemplate.Token.Basic
/-!
# Spellings

Some tokens stand for a stretch of their line. When such tokens are written down where they are said
to start, they should give the line again.
-/

namespace PugTemplate

open List

/-! ## Tokens on lines -/

/-- How a tag, a class, a part of a list of attributes or a text is spelled. -/
def TokenKind.spelling? : TokenKind → Option (List Char)
  | .tag name => some name.toList
  | .class name => some ('.' :: name.toList)
  | .startAttributes => some ['(']
  | .attribute name value _ => some (name.toList ++ '=' :: value.source.toList)
  | .endAttributes => some [')']
  | .text content => some content.toList
  | _ => none

/-- The token stands for a stretch of its line. -/
def Token.isSpelled (t : Token) : Bool := t.kind.spelling?.isSome

/-- Writes a text over a line from a column on. The line is made longer with spaces if need be. -/
def overwrite (line : List Char) (column : Nat) (text : List Char) : List Char :=
  let start := column - 1
  let padded := line ++ List.replicate (start + text.length - line.length) ' '
  padded.take start ++ text ++ padded.drop (start + text.length)

/-- Writes down a token that stands for a stretch of a line. -/
def writeOn (n : Nat) (line : List Char) (t : Token) : List Char :=
  match t.kind.spelling? with
  | some text => if t.position.line = n then overwrite line t.position.column text else line
  | none => line

/-- The line that tokens give when they are written down where they start. -/
def rebuilt (tokens : List Token) (n : Nat) : List Char := tokens.foldl (writeOn n) []

/-! ## Cells -/

def Position.right (p : Position) (n : Nat) : Position := ⟨p.line, p.column + n⟩

/-- A token and the spaces before it. -/
structure Cell where
  gap : Nat := 0
  kind : TokenKind

namespace Cell

/-- The stretch of the line that the token stands for. -/
def spelling (c : Cell) : List Char := c.kind.spelling?.getD []

def text (c : Cell) : List Char := List.replicate c.gap ' ' ++ c.spelling

def line (cells : List Cell) : List Char := cells.flatMap text

/-- The tokens of cells that stand one after the other from a place on. -/
def tokens (p : Position) : List Cell → List Token
  | [] => []
  | c :: cells => ⟨c.kind, p.right c.gap⟩ :: tokens (p.right c.text.length) cells

/-- The tokens of lines of cells, of which the first has a number. -/
def sheet (n : Nat) : List (List Cell) → List Token
  | [] => []
  | cells :: lines => tokens ⟨n, 1⟩ cells ++ sheet (n + 1) lines

@[simp] theorem line_nil : line [] = [] := rfl

@[simp] theorem line_cons (c : Cell) (cells : List Cell) : line (c :: cells) = c.text ++ line cells :=
  rfl

@[simp] theorem length_text (c : Cell) : c.text.length = c.gap + c.spelling.length := by
  rw [text, length_append, length_replicate]

theorem line_append (cells more : List Cell) : line (cells ++ more) = line cells ++ line more :=
  flatMap_append

theorem line_classes (classes : List String) :
    line (classes.map fun c => { kind := .class c }) = classes.flatMap fun c => '.' :: c.toList := by
  rw [line, flatMap_map]
  rfl

theorem tokens_append (p : Position) (cells more : List Cell) :
    tokens p (cells ++ more) = tokens p cells ++ tokens (p.right (line cells).length) more := by
  induction cells generalizing p with
  | nil => rfl
  | cons c cells ih =>
    have hr : (p.right c.text.length).right (line cells).length =
        p.right (line (c :: cells)).length := by
      simp [Position.right, Nat.add_assoc]
    rw [cons_append, tokens, ih, hr]
    rfl

theorem kinds_tokens (p : Position) (cells : List Cell) :
    (tokens p cells).map Token.kind = cells.map kind := by
  induction cells generalizing p with
  | nil => rfl
  | cons c cells ih => rw [tokens, map_cons, map_cons, ih]

theorem tokens_gap (p : Position) (gap : Nat) (kind : TokenKind) (cells : List Cell) :
    tokens p ({ gap, kind } :: cells) = tokens (p.right gap) ({ kind } :: cells) := by
  have hs : spelling { gap, kind } = spelling { kind } := rfl
  simp [tokens, Position.right, hs, Nat.add_assoc]

variable {cells : List Cell} {p : Position} {t : Token} {n : Nat} {lines : List (List Cell)}

theorem line_of_mem_tokens (h : t ∈ tokens p cells) : t.position.line = p.line := by
  induction cells generalizing p with
  | nil => exact absurd h not_mem_nil
  | cons c cells ih =>
    rcases mem_cons.mp h with rfl | h
    · rfl
    · exact @ih (p.right c.text.length) h

theorem filter_tokens (h : ∀ c ∈ cells, c.kind.spelling?.isSome) :
    (tokens p cells).filter Token.isSpelled = tokens p cells := by
  induction cells generalizing p with
  | nil => rfl
  | cons c cells ih =>
    obtain ⟨hc, hce⟩ := forall_mem_cons.mp h
    rw [tokens, filter_cons_of_pos (by exact hc), ih hce]

theorem le_line_of_mem_sheet (h : t ∈ sheet n lines) : n ≤ t.position.line := by
  induction lines generalizing n with
  | nil => exact absurd h not_mem_nil
  | cons cells lines ih =>
    rcases mem_append.mp h with h | h
    · exact Nat.le_of_eq (line_of_mem_tokens h).symm
    · exact Nat.le_of_succ_le (ih h)

/-! ## What tokens stand for -/

theorem spelling_prefix_tokens {p : Position} {cells : List Cell} {front : List Char}
    (hp : p.column = front.length + 1) {t : Token} (ht : t ∈ tokens p cells) {text : List Char}
    (hte : t.kind.spelling? = some text) :
    0 < t.position.column ∧ text <+: (front ++ line cells).drop (t.position.column - 1) := by
  induction cells generalizing p front with
  | nil => exact absurd ht not_mem_nil
  | cons c cells ih =>
    rcases mem_cons.mp ht with rfl | ht
    · have hs : c.spelling = text := by simp [spelling, show c.kind.spelling? = _ from hte]
      refine ⟨by simp only [Position.right, hp]; omega, line cells, ?_⟩
      have hc : (p.right c.gap).column - 1 = (front ++ replicate c.gap ' ').length := by
        simp only [Position.right, length_append, length_replicate]
        omega
      rw [hc, line_cons, Cell.text, hs, append_assoc, ← append_assoc front, drop_left]
    · have hn : (p.right c.text.length).column = (front ++ c.text).length + 1 := by
        simp only [Position.right, length_append]
        omega
      rw [line_cons, ← append_assoc]
      exact ih hn ht

theorem spelling_prefix_sheet (ht : t ∈ sheet n lines) {text : List Char}
    (hte : t.kind.spelling? = some text) :
    ∃ cells, lines[t.position.line - n]? = some cells ∧ 0 < t.position.column ∧
      text <+: (line cells).drop (t.position.column - 1) := by
  induction lines generalizing n with
  | nil => exact absurd ht not_mem_nil
  | cons cells lines ih =>
    rcases mem_append.mp ht with ht | ht
    · have hl : t.position.line = n := line_of_mem_tokens ht
      refine ⟨cells, by rw [hl, Nat.sub_self]; rfl, ?_⟩
      exact @spelling_prefix_tokens ⟨n, 1⟩ cells [] rfl t ht text hte
    · have hl := le_line_of_mem_sheet ht
      obtain ⟨found, hf, hp⟩ := ih ht
      have hi : t.position.line - n = t.position.line - (n + 1) + 1 := by omega
      exact ⟨found, by rw [hi]; exact hf, hp⟩

/-! ## Writing tokens down -/

theorem overwrite_behind (front : List Char) (gap : Nat) (text : List Char) :
    overwrite front (front.length + gap + 1) text = front ++ List.replicate gap ' ' ++ text := by
  have hw : front.length + gap + text.length - front.length = gap + text.length := by omega
  have hf : (front ++ replicate gap ' ').length = front.length + gap := by simp
  have hen : (front ++ replicate gap ' ' ++ replicate text.length ' ').length ≤
      (front ++ replicate gap ' ').length + text.length := by
    refine Nat.le_of_eq ?_
    rw [length_append, length_replicate]
  unfold overwrite
  dsimp only
  rw [Nat.add_sub_cancel, hw, ← replicate_append_replicate, ← append_assoc, ← hf,
    take_left, drop_eq_nil_of_le hen, append_nil]

theorem foldl_writeOn_tokens {p : Position} {cells : List Cell} {front : List Char}
    (hp : p.column = front.length + 1) (hce : ∀ c ∈ cells, c.kind.spelling?.isSome) :
    (tokens p cells).foldl (writeOn p.line) front = front ++ line cells := by
  induction cells generalizing p front with
  | nil => simp [tokens]
  | cons c cells ih =>
    obtain ⟨hc, hce⟩ := forall_mem_cons.mp hce
    obtain ⟨text, ht⟩ := Option.isSome_iff_exists.mp hc
    have hco : (p.right c.gap).column = front.length + c.gap + 1 := by
      simp only [Position.right]
      omega
    have hf : writeOn p.line front ⟨c.kind, p.right c.gap⟩ = front ++ c.text := by
      simp only [writeOn, ht]
      rw [if_pos (show (p.right c.gap).line = p.line from rfl), hco, overwrite_behind,
        Cell.text, spelling, ht, append_assoc]
      rfl
    have hn : (p.right c.text.length).column = (front ++ c.text).length + 1 := by
      simp only [Position.right, length_append]
      omega
    rw [tokens, foldl_cons, hf, line_cons, ← append_assoc]
    exact ih hn hce

theorem foldl_writeOn_others {ts : List Token} (h : ∀ t ∈ ts, t.position.line ≠ n)
    (front : List Char) : ts.foldl (writeOn n) front = front := by
  induction ts with
  | nil => rfl
  | cons t ts ih =>
    obtain ⟨ht, hts⟩ := forall_mem_cons.mp h
    have hf : writeOn n front t = front := by
      unfold writeOn
      split
      · exact if_neg ht
      · rfl
    rw [foldl_cons, hf, ih hts]

theorem rebuilt_filter (ts : List Token) (n : Nat) :
    rebuilt (ts.filter Token.isSpelled) n = rebuilt ts n := by
  unfold rebuilt
  generalize ([] : List Char) = front
  induction ts generalizing front with
  | nil => rfl
  | cons t ts ih =>
    cases ht : t.kind.spelling? with
    | none =>
      have hs : writeOn n front t = front := by simp [writeOn, ht]
      rw [filter_cons_of_neg (by simp [Token.isSpelled, ht]), foldl_cons, hs, ih]
    | some text =>
      rw [filter_cons_of_pos (by simp [Token.isSpelled, ht]), foldl_cons, foldl_cons, ih]

theorem rebuilt_sheet (hl : ∀ cells ∈ lines, ∀ c ∈ cells, c.kind.spelling?.isSome)
    {i : Nat} (hi : lines[i]? = some cells) : rebuilt (sheet n lines) (n + i) = line cells := by
  unfold rebuilt
  induction lines generalizing n i with
  | nil => exact absurd hi (by simp)
  | cons first lines ih =>
    obtain ⟨hf, hl⟩ := forall_mem_cons.mp hl
    rw [sheet, foldl_append]
    cases i with
    | zero =>
      obtain rfl : first = cells := by simpa using hi
      have ho : ∀ t ∈ sheet (n + 1) lines, t.position.line ≠ n + 0 := fun t ht =>
        Nat.ne_of_gt (le_line_of_mem_sheet ht)
      rw [foldl_writeOn_others ho]
      exact @foldl_writeOn_tokens ⟨n, 1⟩ first [] rfl hf
    | succ i =>
      have ho : ∀ t ∈ tokens ⟨n, 1⟩ first, t.position.line ≠ n + (i + 1) := by
        intro t ht
        rw [line_of_mem_tokens ht]
        show n ≠ n + (i + 1)
        omega
      rw [foldl_writeOn_others ho, Nat.add_left_comm n i 1, Nat.add_comm i (n + 1)]
      exact ih hl hi

end Cell
end PugTemplate
