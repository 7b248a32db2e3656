import Mathlib.Data.List.Chain
import PugTemplate.Proofs.Token.Brackets
import PugTemplate.Proofs.Token.Expressions
/-!
# Moves of the lexer

Every rule but those for indentation and for the end of the template does to a lexer what `Moves`
says: it leaves the open indentations as they are, and adds tokens that close what they open and whose
expressions are vouched for. What follows a dot is part of it, since a dot ends its line.
-/

namespace PugTemplate

open List TokenKind

/-! ## Dots -/

/-- What may stand on the line of a tag, apart from a colon. -/
def TokenKind.isContent : TokenKind → Bool
  | .text _ => true
  | .interpolatedCode _ _ _ => true
  | .code _ _ _ => true
  | _ => false

def AtLineEnd (cs : List Char) : Prop := ∀ c ∈ cs.head?, c = '\n' ∨ c = ':'

/-- In tokens of which the last one comes first, no dot has content behind it. -/
def DotsEnd (ts : List Token) : Prop := ts.IsChain fun u t => t.kind = .dot → u.kind.isContent = false

/-- Dots end their lines, and content may be added. -/
structure Undotted (ts : List Token) : Prop where
  dotsEnd : DotsEnd ts
  last : ∀ t ∈ ts.head?, t.kind ≠ .dot

structure Dotted (s : Lexer) : Prop where
  dotsEnd : DotsEnd s.tokens
  last : ∀ t ∈ s.tokens.head?, t.kind = .dot → AtLineEnd s.rest

variable {ts : List Token} {t : Token} {s : Lexer} {k : TokenKind}

theorem Undotted.push (h : Undotted ts) (ht : t.kind ≠ .dot) : Undotted (t :: ts) where
  dotsEnd := h.dotsEnd.cons fun u hu hd => absurd hd (h.last u hu)
  last u hu := by
    cases hu
    exact ht

theorem Undotted.append {new : List Token} (h : Undotted ts) (hn : ∀ t ∈ new, t.kind ≠ .dot) :
    Undotted (new ++ ts) := by
  induction new with
  | nil => exact h
  | cons t new ih =>
    obtain ⟨ht, hn⟩ := forall_mem_cons.mp hn
    exact (ih hn).push ht

theorem Undotted.dotted (h : Undotted s.tokens) : Dotted s :=
  ⟨h.dotsEnd, fun t ht hd => absurd hd (h.last t ht)⟩

theorem Dotted.undotted (h : Dotted s) (hr : ¬AtLineEnd s.rest) : Undotted s.tokens :=
  ⟨h.dotsEnd, fun t ht hd => hr (h.last t ht hd)⟩

theorem DotsEnd.push (h : DotsEnd ts) (hd : t.kind ≠ .dot) (hc : t.kind.isContent = false) :
    Undotted (t :: ts) where
  dotsEnd := h.cons fun _ _ _ => hc
  last u hu := by
    cases hu
    exact hd

/-! ## Moves -/

/-- Tokens that close what they open, and whose expressions are vouched for. -/
structure Issued (validator : Validator) (depth : Nat) (ts : List Token) : Prop extends
    Flat depth ts where
  vouched : ∀ t ∈ ts, t.kind.Vouched validator

namespace Issued

variable {validator : Validator} {depth : Nat} {ts us : List Token} {t first last : Token}

theorem nil : Issued validator depth [] := ⟨.nil, forall_mem_nil _⟩

theorem append (ht : Issued validator depth ts) (hu : Issued validator depth us) :
    Issued validator depth (ts ++ us) :=
  ⟨ht.toFlat.append hu.toFlat, forall_mem_append.mpr ⟨ht.vouched, hu.vouched⟩⟩

theorem plain (ht : t.kind.isPlain) (hv : t.kind.Vouched validator) : Issued validator depth [t] :=
  ⟨.plain ht, forall_mem_singleton.mpr hv⟩

theorem enclose (h : Flat depth (first :: (ts ++ [last])))
    (ht : ∀ t ∈ ts, t.kind.Vouched validator) (hf : first.kind.Vouched validator)
    (hl : last.kind.Vouched validator) : Issued validator depth (first :: (ts ++ [last])) :=
  ⟨h, forall_mem_cons.mpr ⟨hf, forall_mem_append.mpr ⟨ht, forall_mem_singleton.mpr hl⟩⟩⟩

end Issued

/-- A token that is neither a bracket nor an end, and no matter after a dot. -/
def TokenKind.isWord : TokenKind → Bool
  | .indent _ => false
  | .outdent => false
  | .startAttributes => false
  | .endAttributes => false
  | .startPipelessText => false
  | .endPipelessText => false
  | .startInterpolation => false
  | .endInterpolation => false
  | .eos => false
  | .dot => false
  | .text _ => false
  | .interpolatedCode _ _ _ => false
  | .code _ _ _ => false
  | _ => true

theorem TokenKind.isPlain_of_isWord (h : k.isWord) : k.isPlain := by
  cases k <;> first | rfl | exact absurd h Bool.false_ne_true

theorem TokenKind.ne_dot_of_isWord (h : k.isWord) : k ≠ .dot := by
  rintro rfl
  exact absurd h Bool.false_ne_true

theorem TokenKind.isContent_of_isWord (h : k.isWord) : k.isContent = false := by
  cases k <;> first | rfl | exact absurd h Bool.false_ne_true

structure Shifts (s t : Lexer) : Prop where
  tokens : t.tokens = s.tokens
  indents : t.indents = s.indents
  ended : t.ended = s.ended

theorem Shifts.refl : Shifts s s := ⟨rfl, rfl, rfl⟩

theorem Shifts.trans {t u : Lexer} (h : Shifts s t) (h' : Shifts t u) : Shifts s u :=
  ⟨h'.tokens.trans h.tokens, h'.indents.trans h.indents, h'.ended.trans h.ended⟩

/-- Tokens are added, and indentations stay open. -/
structure Grows (env : Setting) (depth : Nat) (s t : Lexer) : Prop where
  indents : t.indents = s.indents
  /-- Only the end of an interpolation is an end. -/
  ended : t.ended = s.ended ∨ env.interpolated = true
  tokens : ∃ new, Issued env.validator depth new ∧ t.tokens = new.reverse ++ s.tokens

structure Adds (env : Setting) (depth : Nat) (s t : Lexer) : Prop extends Grows env depth s t where
  undotted : Undotted s.tokens → Undotted t.tokens

/-- **What a rule does** to the tokens. -/
structure Moves (env : Setting) (depth : Nat) (s t : Lexer) : Prop extends Grows env depth s t where
  dotted : Dotted s → Dotted t

section Moves

variable {env : Setting} {depth : Nat} {s t u : Lexer}

theorem Shifts.grows (h : Shifts s t) : Grows env depth s t :=
  ⟨h.indents, .inl h.ended, ⟨[], .nil, h.tokens⟩⟩

theorem Shifts.growsBy {kind : TokenKind} {p : Position} (h : Shifts s t)
    (hk : kind.isPlain) (hv : kind.Vouched env.validator) :
    Grows env depth s (t.pushAt kind p) :=
  ⟨h.indents, .inl h.ended, ⟨[⟨kind, p⟩], .plain hk hv, congrArg _ h.tokens⟩⟩

theorem Grows.trans (h : Grows env depth s t) (h' : Grows env depth t u) : Grows env depth s u where
  indents := h'.indents.trans h.indents
  ended := by
    rcases h'.ended with he | he
    · rw [he]; exact h.ended
    · exact .inr he
  tokens := by
    obtain ⟨new, hn, ht⟩ := h.tokens
    obtain ⟨new', hn', ht'⟩ := h'.tokens
    exact ⟨new ++ new', hn.append hn', by
      rw [ht', ht, reverse_append, append_assoc]⟩

namespace Adds

theorem of_shifts (h : Shifts s t) : Adds env depth s t := ⟨h.grows, fun hs => h.tokens ▸ hs⟩

theorem refl : Adds env depth s s := .of_shifts .refl

theorem trans (h : Adds env depth s t) (h' : Adds env depth t u) : Adds env depth s u :=
  ⟨h.toGrows.trans h'.toGrows, fun hs => h'.undotted (h.undotted hs)⟩

theorem push {kind : TokenKind} {p : Position} (h : Shifts s t) (hk : kind.isPlain ∧ kind ≠ .dot)
    (hv : kind.Vouched env.validator) :
    Adds env depth s (t.pushAt kind p) := by
  refine ⟨h.growsBy hk.1 hv, fun hs => ?_⟩
  show Undotted (⟨kind, p⟩ :: t.tokens)
  rw [h.tokens]
  exact hs.push hk.2

end Adds

namespace Moves

theorem refl : Moves env depth s s := ⟨Shifts.refl.grows, id⟩

theorem trans (h : Moves env depth s t) (h' : Moves env depth t u) : Moves env depth s u :=
  ⟨h.toGrows.trans h'.toGrows, fun hs => h'.dotted (h.dotted hs)⟩

/-- Reading on from a place where content may stand, or to the end of a line. -/
theorem of_shifts (h : Shifts s t) (hl : AtLineEnd s.rest → AtLineEnd t.rest) :
    Moves env depth s t := by
  refine ⟨h.grows, fun hs => ⟨h.tokens ▸ hs.dotsEnd, fun t ht hd => ?_⟩⟩
  rw [h.tokens] at ht
  exact hl (hs.last t ht hd)

theorem of_adds (h : Adds env depth t u) (ht : Shifts s t) (hl : ¬AtLineEnd s.rest) :
    Moves env depth s u := by
  refine ⟨ht.grows.trans h.toGrows, fun hs => Undotted.dotted (h.undotted ?_)⟩
  rw [ht.tokens]
  exact hs.undotted hl

theorem push {kind : TokenKind} {p : Position} (h : Shifts s t) (hk : kind.isWord)
    (hv : kind.Vouched env.validator) :
    Moves env depth s (t.pushAt kind p) := by
  refine ⟨h.growsBy (isPlain_of_isWord hk) hv, fun hs => Undotted.dotted ?_⟩
  show Undotted (⟨kind, p⟩ :: t.tokens)
  rw [h.tokens]
  exact hs.dotsEnd.push (ne_dot_of_isWord hk) (isContent_of_isWord hk)

theorem pushLast {kind : TokenKind} {p : Position} (h : Shifts s t)
    (hk : kind.isPlain ∧ kind.isContent = false)
    (hp : kind.enclosed? = none ∧ kind.spliced? = none) (hl : AtLineEnd t.rest) :
    Moves env depth s (t.pushAt kind p) := by
  refine ⟨h.growsBy hk.1 (.of_none hp), fun hs => ⟨?_, fun _ _ _ => hl⟩⟩
  show DotsEnd (⟨kind, p⟩ :: t.tokens)
  rw [h.tokens]
  exact hs.dotsEnd.cons fun _ _ _ => hk.2

theorem enclose {new : List Token} {first last : Token} (hi : t.indents = s.indents)
    (hen : t.ended = s.ended ∨ env.interpolated)
    (his : Issued env.validator depth (first :: (new ++ [last])))
    (ht : t.tokens = last :: (new.reverse ++ first :: s.tokens))
    (hu : Undotted (first :: s.tokens) → Undotted (new.reverse ++ first :: s.tokens))
    (hf : first.kind ≠ .dot ∧ first.kind.isContent = false) (hl : last.kind ≠ .dot) :
    Moves env depth s t := by
  refine ⟨⟨hi, hen, ⟨_, his, by simp [ht]⟩⟩, fun hs => Undotted.dotted ?_⟩
  rw [ht]
  exact (hu (hs.dotsEnd.push hf.1 hf.2)).push hl

end Moves

end Moves

end PugTemplate
